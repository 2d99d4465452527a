/-
`save_changes` of the front end's `Model` over a channel whose `send` may throw, and the
runs of sets, inbound updates and saves.
-/
import Cositos.FrontBuffers
import Cositos.Histories

namespace Cositos

theorem Key.toValue_injective : Function.Injective Key.toValue := by
  intro k k' h
  have hhash := congrArg Value.hashKey h
  rw [Value.hashKey_toValue, Value.hashKey_toValue] at hhash
  exact Except.ok.inj hhash

namespace Front

open Value

/-! ### The split, key by key -/

theorem mem_keys_assign_iff {own : Bindings} {key j : Key} {value : Value} :
    j ∈ Dict.keys (assign own key value) ↔
      j ∈ Dict.keys own ∨ (j = key ∧ key ≠ protoKey) := by
  by_cases hproto : key = protoKey
  · subst hproto
    by_cases hmem : protoKey ∈ Dict.keys own
    · rw [assign_eq_set hmem, Dict.mem_keys_set]
      constructor
      · rintro (rfl | h)
        · exact .inl hmem
        · exact .inl h
      · rintro (h | ⟨_, h⟩)
        · exact .inr h
        · exact absurd rfl h
    · rw [assign, if_pos ⟨rfl, hmem⟩]
      simp
  · rw [assign_eq_setOwn hproto, ← Dict.lookup_isSome_iff, lookup_setOwn,
      ← Dict.lookup_isSome_iff]
    by_cases hj : j = key
    · simp [hj, hproto]
    · simp [hj]

/-- What `separate` pushes lies below the path it was called with. -/
theorem separateEntries_below {recurse : Path → Value → Separated} {sub : Value} {path : Path}
    (hrecurse : ∀ at' v, ∀ leaf ∈ (recurse at' v).2, at' <+: leaf.1) (entries : Bindings)
    (out : Option Value) :
    ∀ leaf ∈ (separateEntries recurse sub path entries out).2, ∃ key ∈ Dict.keys entries,
      path ++ [key] <+: leaf.1 := by
  induction entries generalizing out with
  | nil => simp [separateEntries]
  | cons head tail ih =>
      obtain ⟨key, value⟩ := head
      have htail : ∀ out, ∀ leaf ∈ (separateEntries recurse sub path tail out).2,
          ∃ k ∈ Dict.keys ((key, value) :: tail), path ++ [k] <+: leaf.1 := by
        intro out leaf hleaf
        obtain ⟨k, hk, hpre⟩ := ih out leaf hleaf
        exact ⟨k, List.mem_cons_of_mem _ hk, hpre⟩
      by_cases hcontainer : value.isContainer = true
      · intro leaf hleaf
        rw [separateEntries_container sub tail out hcontainer rfl] at hleaf
        rcases List.mem_append.mp hleaf with hinner | hrest
        · exact ⟨key, List.mem_cons_self, hrecurse _ _ leaf hinner⟩
        · exact htail _ leaf hrest
      · cases value with
        | scalar s => exact htail out
        | bin b =>
            intro leaf hleaf
            rcases List.mem_cons.mp hleaf with rfl | hrest
            · exact ⟨key, List.mem_cons_self, List.prefix_refl _⟩
            · exact htail _ leaf hrest
        | list xs | tuple xs | dict kvs => exact absurd rfl hcontainer

theorem separate_below (height : Nat) (path : Path) (v : Value) :
    ∀ leaf ∈ (separate height path v).2, path <+: leaf.1 := by
  induction height generalizing path v with
  | zero => simp [separate]
  | succ height ih =>
      have hentries : ∀ entries,
          ∀ leaf ∈ (separateEntries (separate height) v path entries none).2,
            path <+: leaf.1 := by
        intro entries leaf hleaf
        obtain ⟨key, _, hpre⟩ := separateEntries_below ih entries none leaf hleaf
        exact (List.prefix_append path [key]).trans hpre
      cases v with
      | scalar s | bin b => simp [separate]
      | list xs | tuple xs | dict kvs => exact hentries _

/-- The keys of an object that went out: in its stripped form, or as the first segment of a
buffer path. -/
def sentKeys (stripped : Bindings) (pushed : List (Path × Binary)) (key : Key) : Prop :=
  key ∈ Dict.keys stripped ∨ ∃ leaf ∈ pushed, leaf.1.head? = some key

theorem sentKeys_append {stripped : Bindings} {inner pushed : List (Path × Binary)} {key : Key} :
    sentKeys stripped (inner ++ pushed) key ↔
      sentKeys stripped pushed key ∨ ∃ leaf ∈ inner, leaf.1.head? = some key := by
  simp only [sentKeys, List.mem_append, or_and_right, exists_or]
  exact (or_congr_right or_comm).trans or_assoc.symm

theorem head_of_below {path : Path} {key k : Key} (hbelow : [k] <+: path)
    (hhead : path.head? = some key) : key = k := by
  obtain ⟨rest, rfl⟩ := hbelow
  simpa using hhead.symm

theorem mem_keys_erase_iff {own : Bindings} (h : (Dict.keys own).Nodup) {key j : Key} :
    j ∈ Dict.keys (Dict.erase own key) ↔ j ≠ key ∧ j ∈ Dict.keys own := by
  rw [← Dict.lookup_isSome_iff, Dict.lookup_erase h, ← Dict.lookup_isSome_iff]
  by_cases hj : j = key <;> simp [hj]

/-- The loop of `separate` on an object loses no key and makes none up. -/
theorem separateEntries_keys {recurse : Path → Value → Separated} {own : Bindings}
    (hrecurse : ∀ at' v, ∀ leaf ∈ (recurse at' v).2, at' <+: leaf.1) (entries : Bindings)
    (hentries : (Dict.keys entries).Nodup) {current : Bindings}
    (hcurrent : (Dict.keys current).Nodup)
    (hmem : ∀ key ∈ Dict.keys entries, key ∈ Dict.keys current) {out : Option Value}
    (hout : out.getD (clone (.dict own)) = .dict current) :
    ∃ stripped, (separateEntries recurse (.dict own) [] entries out).1.getD (clone (.dict own)) =
        .dict stripped ∧
      ∀ key, sentKeys stripped (separateEntries recurse (.dict own) [] entries out).2 key ↔
        key ∈ Dict.keys current := by
  induction entries generalizing current out with
  | nil => exact ⟨current, hout, fun key => by simp [sentKeys, separateEntries]⟩
  | cons head tail ih =>
      obtain ⟨k, value⟩ := head
      obtain ⟨hfresh, htail⟩ := List.nodup_cons.mp hentries
      have hk : k ∈ Dict.keys current := hmem k List.mem_cons_self
      have hmem' : ∀ key ∈ Dict.keys tail, key ∈ Dict.keys current :=
        fun key hkey => hmem key (List.mem_cons_of_mem _ hkey)
      by_cases hcontainer : value.isContainer = true
      · rcases hinner : recurse ([] ++ [k]) value with ⟨nested, inner⟩
        -- the clone keeps its keys when the nested value is written into it
        have hnext : ∃ current', (Dict.keys current') = Dict.keys current ∧
            (nested.elim out fun nested =>
              some (setNested (out.getD (clone (.dict own))) k nested)).getD
                (clone (.dict own)) = .dict current' := by
          cases nested with
          | none => exact ⟨current, rfl, hout⟩
          | some nested =>
              refine ⟨assign current k nested, ?_, by simp [hout, setNested]⟩
              rw [assign_eq_set hk, Dict.keys_set_of_mem hk]
        obtain ⟨current', hkeys, hout'⟩ := hnext
        rw [separateEntries_container _ tail out hcontainer hinner]
        obtain ⟨stripped, hstripped, hsent⟩ := ih htail (hkeys ▸ hcurrent)
          (fun key hkey => hkeys ▸ hmem' key hkey) hout'
        refine ⟨stripped, hstripped, fun key => ?_⟩
        rw [sentKeys_append, hsent, hkeys]
        refine ⟨fun h => h.elim id ?_, .inl⟩
        rintro ⟨leaf, hleaf, hhead⟩
        have hbelow := hrecurse ([] ++ [k]) value leaf (by rw [hinner]; exact hleaf)
        exact head_of_below hbelow hhead ▸ hk
      · cases value with
        | scalar s => exact ih htail hcurrent hmem' hout
        | bin b =>
            have hmem'' : ∀ key ∈ Dict.keys tail, key ∈ Dict.keys (Dict.erase current k) := by
              intro key hkey
              refine (mem_keys_erase_iff hcurrent).mpr ⟨?_, hmem' key hkey⟩
              rintro rfl
              exact hfresh hkey
            have hout' : (some (extractBinary (out.getD (clone (.dict own))) k)).getD
                (clone (.dict own)) = .dict (Dict.erase current k) := by
              simp [hout, extractBinary]
            obtain ⟨stripped, hstripped, hsent⟩ :=
              ih htail (Dict.nodup_keys_erase hcurrent k) hmem'' hout'
            refine ⟨stripped, hstripped, fun key => ?_⟩
            have hpushed : sentKeys stripped ([([k], b)] ++ (separateEntries recurse (.dict own) []
                tail (some (extractBinary (out.getD (clone (.dict own))) k))).2) key ↔ _ :=
              sentKeys_append
            refine hpushed.trans ?_
            rw [hsent, mem_keys_erase_iff hcurrent]
            by_cases hkey : key = k
            · subst hkey
              simp [hk]
            · simp [hkey, Ne.symm hkey]
        | list xs | tuple xs | dict kvs => exact absurd rfl hcontainer

/-- What went out of an object are its keys. -/
theorem removeBuffers_keys {own : Bindings} (hown : (Dict.keys own).Nodup) :
    ∃ stripped pushed, removeBuffers (.dict own) =
        (.dict stripped, pushed.map Prod.fst, pushed.map Prod.snd) ∧
      ∀ key, sentKeys stripped pushed key ↔ key ∈ Dict.keys own := by
  obtain ⟨stripped, hstripped, hsent⟩ := separateEntries_keys
    (fun at' v => separate_below (heightEntries own) at' v) own hown hown (fun _ h => h)
    (rfl : Option.none.getD (clone (.dict own)) = .dict own)
  exact ⟨stripped, _, by rw [← hstripped]; rfl, hsent⟩

namespace Model

theorem mem_keys_dirtyState_iff (model : Model) (key : Key) :
    key ∈ Dict.keys model.dirtyState ↔ key ∈ model.dirty ∧ key ≠ protoKey := by
  suffices hfold : ∀ own : Bindings,
      key ∈ Dict.keys (model.dirty.foldl (fun own key => assign own key (model.get key)) own) ↔
        key ∈ Dict.keys own ∨ (key ∈ model.dirty ∧ key ≠ protoKey) from
    (hfold []).trans (by simp)
  induction model.dirty with
  | nil => simp
  | cons head tail ih =>
      intro own
      rw [List.foldl_cons, ih, mem_keys_assign_iff, List.mem_cons]
      by_cases hkey : key = head
      · subst hkey
        by_cases hproto : key = protoKey <;> simp [hproto]
      · simp [hkey]

/-! ### Saving over a channel that may throw -/

/-- The update about the dirty keys, as `save_changes` sends it. -/
def dirtyUpdate (model : Model) : Outbound :=
  let (state, bufferPaths, buffers) := removeBuffers (.dict model.dirtyState)
  ([(.str "method", .str "update"), (.str "state", state),
    (.str "buffer_paths", Protocol.bufferPathsField bufferPaths)], buffers)

end Model

/-- The message carries the key: in its state, or in front of one of its buffer paths. -/
def Carries (message : Outbound) (key : Key) : Prop :=
  (∃ own, message.1.lookup (.str "state") = some (.dict own) ∧ key ∈ Dict.keys own) ∨
    ∃ paths, message.1.lookup (.str "buffer_paths") = some (.list paths) ∧
      ∃ rest, .list (key.toValue :: rest) ∈ paths

theorem carries_iff {stripped : Bindings} {pushed : List (Path × Binary)}
    {buffers : List Binary} {key : Key} :
    Carries ([(.str "method", .str "update"), (.str "state", .dict stripped),
        (.str "buffer_paths", Protocol.bufferPathsField (pushed.map Prod.fst))], buffers) key ↔
      sentKeys stripped pushed key := by
  refine or_congr ?_ ?_
  · constructor
    · rintro ⟨own, hstate, hkey⟩
      cases hstate
      exact hkey
    · exact fun hkey => ⟨stripped, rfl, hkey⟩
  · constructor
    · rintro ⟨paths, hpaths, rest, hrest⟩
      cases hpaths
      obtain ⟨path, hpath, heq⟩ := List.mem_map.mp hrest
      obtain ⟨leaf, hleaf, rfl⟩ := List.mem_map.mp hpath
      refine ⟨leaf, hleaf, ?_⟩
      cases hleaf' : leaf.1 with
      | nil => simp [hleaf', Path.toValue] at heq
      | cons k path =>
          simp only [hleaf', Path.toValue, List.map_cons, Value.list.injEq,
            List.cons.injEq] at heq
          simp [Key.toValue_injective heq.1]
    · rintro ⟨leaf, hleaf, hhead⟩
      refine ⟨_, rfl, leaf.1.tail.map Key.toValue, List.mem_map.mpr ⟨leaf.1, ?_, ?_⟩⟩
      · exact List.mem_map.mpr ⟨leaf, hleaf, rfl⟩
      · rw [Path.toValue, ← List.map_cons, ← List.eq_cons_of_mem_head? hhead]

theorem carries_dirtyUpdate_iff (model : Model) (key : Key) :
    Carries model.dirtyUpdate key ↔ key ∈ model.dirty ∧ key ≠ protoKey := by
  obtain ⟨stripped, pushed, hsplit, hsent⟩ := removeBuffers_keys model.nodup_keys_dirtyState
  rw [Model.dirtyUpdate, hsplit, carries_iff, hsent, Model.mem_keys_dirtyState_iff]

/-- `remove_buffers` where the stack has room for so many nested calls of `separate`. -/
def removeBuffersWithin (stack : Nat) (state : Value) : Except JsError (Buffers.Split Value) :=
  if stack < state.height then .error .rangeError else .ok (removeBuffers state)

section Channel

variable {σ ε : Type}

/-- How a `save_changes` ends. -/
inductive Saved (ε : Type)
  | unneeded
  | sent (message : Outbound)
  | threw (error : JsError ⊕ ε)

/-- `save_changes` over a channel, whose `send` may throw and may change the channel.  What
the channel answers at once is an update that comes in after it. -/
def save (send : Outbound → σ → Option ε × σ) (stack : Nat) (model : Model) (channel : σ) :
    Saved ε × Model × σ :=
  if model.dirty = [] then (.unneeded, model, channel)
  else
    let cleared : Model := { model with dirty := [] }
    match removeBuffersWithin stack (.dict model.dirtyState) with
    | .error error => (.threw (.inl error), cleared, channel)
    | .ok (state, bufferPaths, buffers) =>
        let message : Outbound := ([(.str "method", .str "update"), (.str "state", state),
          (.str "buffer_paths", Protocol.bufferPathsField bufferPaths)], buffers)
        match send message channel with
        | (none, channel) => (.sent message, cleared, channel)
        | (some error, channel) => (.threw (.inr error), cleared, channel)

/-- What is done to a model that a channel serves. -/
inductive Edit
  | set (key : String) (value : Value)
  | inbound (msg : Value) (buffers : List Binary)
  | save (stack : Nat)

/-- A model and its channel, with the keys set since the last save that was sent. -/
structure Editing (σ : Type) where
  model : Model
  channel : σ
  unsaved : List Key := []

variable (send : Outbound → σ → Option ε × σ)

namespace Editing

/-- One step of a run.  An update that cannot be merged leaves the model as it is. -/
def step (s : Editing σ) : Edit → Editing σ
  | .set key value =>
      { s with model := (s.model.set key value).1, unsaved := .str key :: s.unsaved }
  | .inbound msg buffers =>
      match s.model.receive msg buffers with
      | .ok (model, _) => { s with model }
      | .error _ => s
  | .save stack =>
      match Front.save send stack s.model s.channel with
      | (.sent _, model, channel) => { model, channel, unsaved := [] }
      | (_, model, channel) => { s with model, channel }

/-- No edit is lost: a save that throws leaves dirty what was dirty, and one that sends
carries every key set since the last one that did. -/
def KeepsEdits (s : Editing σ) : Edit → Prop
  | .save stack =>
      match Front.save send stack s.model s.channel with
      | (.unneeded, _, _) => True
      | (.threw _, model, _) => ∀ key ∈ s.model.dirty, key ∈ model.dirty
      | (.sent message, _, _) => ∀ key ∈ s.unsaved, Carries message key
  | _ => True

/-- The update about the dirty keys can be made and sent: none of them is `__proto__`, the
stack has room for their values, and the channel does not throw on it. -/
def Delivers (s : Editing σ) : Edit → Prop
  | .save stack =>
      s.model.dirty = [] ∨
        protoKey ∉ s.model.dirty ∧ (Value.dict s.model.dirtyState).height ≤ stack ∧
          (send s.model.dirtyUpdate s.channel).1 = none
  | _ => True

end Editing

variable {send} {stack : Nat} {model : Model} {channel : σ}

/-- With dirty keys `save_changes` clears them and then sends the update or throws. -/
theorem save_cases (send : Outbound → σ → Option ε × σ) (stack : Nat) (channel : σ)
    (hdirty : model.dirty ≠ []) :
    ∃ saved channel', save send stack model channel =
        (saved, { model with dirty := [] }, channel') ∧
      ((saved = .sent model.dirtyUpdate ∧ (Value.dict model.dirtyState).height ≤ stack ∧
          (send model.dirtyUpdate channel).1 = none) ∨
        ((∃ error, saved = .threw error) ∧
          ¬ ((Value.dict model.dirtyState).height ≤ stack ∧
            (send model.dirtyUpdate channel).1 = none))) := by
  rw [save, if_neg hdirty, removeBuffersWithin]
  split_ifs with hstack
  · refine ⟨_, channel, rfl, .inr ⟨⟨_, rfl⟩, ?_⟩⟩
    rintro ⟨hroom, _⟩
    omega
  · rcases hsend : send model.dirtyUpdate channel with ⟨error, channel'⟩
    simp only [Model.dirtyUpdate] at hsend ⊢
    simp only [hsend]
    cases error with
    | none => exact ⟨_, channel', rfl, .inl ⟨rfl, by omega, rfl⟩⟩
    | some error => exact ⟨_, channel', rfl, .inr ⟨⟨_, rfl⟩, by simp⟩⟩

/-- Over a channel that takes the update, and with room on the stack, this is
`Model.saveChanges`. -/
theorem save_eq_saveChanges (hdirty : model.dirty ≠ [])
    (hstack : (Value.dict model.dirtyState).height ≤ stack)
    (hsend : (send model.dirtyUpdate channel).1 = none) :
    ∃ channel', save send stack model channel =
      (.sent model.dirtyUpdate, model.saveChanges.1, channel') ∧
        model.saveChanges.2 = some model.dirtyUpdate := by
  obtain ⟨saved, channel', hsave, hsaved⟩ := save_cases send stack channel hdirty
  rcases hsaved with ⟨rfl, _⟩ | ⟨_, hthrew⟩
  · exact ⟨channel', by rw [hsave, Model.saveChanges, if_neg hdirty],
      by rw [Model.saveChanges, if_neg hdirty]; rfl⟩
  · exact absurd ⟨hstack, hsend⟩ hthrew

/-- An inbound update leaves alone what is dirty. -/
theorem Model.dirty_receive {msg : Value} {buffers : List Binary} {model' : Model}
    {emitted : List Emitted} (h : model.receive msg buffers = .ok (model', emitted)) :
    model'.dirty = model.dirty := by
  unfold Model.receive at h
  simp only [bind, Except.bind] at h
  split at h
  · cases h
  · split at h
    · split at h
      · cases h
      · cases h
        rfl
    · split at h
      · cases h
      · cases h
        rfl
    · cases h
      rfl

namespace Editing

/-- The keys still to be sent are the dirty ones. -/
def Tracked (s : Editing σ) : Prop := ∀ key, key ∈ s.unsaved ↔ key ∈ s.model.dirty

/-- Where the dirty keys are those set since the last save that was sent, a step loses no
edit exactly when its update is delivered. -/
theorem keepsEdits_iff {s : Editing σ} (h : Tracked s) (edit : Edit) :
    KeepsEdits send s edit ↔ Delivers send s edit := by
  cases edit with
  | set key value => exact Iff.rfl
  | inbound msg buffers => exact Iff.rfl
  | save stack =>
      rw [KeepsEdits, Delivers]
      by_cases hdirty : s.model.dirty = []
      · simp [save, hdirty]
      · obtain ⟨saved, channel', hsave, hsaved⟩ := save_cases send stack s.channel hdirty
        rw [hsave]
        rcases hsaved with ⟨rfl, hroom, htakes⟩ | ⟨⟨error, rfl⟩, hfails⟩
        · have hcarried : (∀ key ∈ s.unsaved, Carries s.model.dirtyUpdate key) ↔
              protoKey ∉ s.model.dirty := by
            constructor
            · intro hall hproto
              exact ((carries_dirtyUpdate_iff _ _).mp (hall _ ((h _).mpr hproto))).2 rfl
            · intro hproto key hkey
              refine (carries_dirtyUpdate_iff _ _).mpr ⟨(h key).mp hkey, ?_⟩
              rintro rfl
              exact hproto ((h _).mp hkey)
          simp [hcarried, hdirty, hroom, htakes]
        · obtain ⟨key, hkey⟩ := List.exists_mem_of_ne_nil _ hdirty
          refine iff_of_false (fun hall => ?_) ?_
          · exact absurd (hall key hkey) (by simp)
          · rintro (hnil | ⟨_, hroom⟩)
            · exact hdirty hnil
            · exact hfails hroom

theorem tracked_step {s : Editing σ} (h : Tracked s) {edit : Edit}
    (hkeeps : KeepsEdits send s edit) : Tracked (step send s edit) := by
  cases edit with
  | set key value =>
      intro k
      simp only [step, Model.set, List.mem_cons, h k]
      split_ifs with hmem
      · exact ⟨fun hk => hk.elim (· ▸ hmem) id, .inr⟩
      · rw [List.mem_append, List.mem_singleton, or_comm]
  | inbound msg buffers =>
      rw [step]
      cases hreceive : s.model.receive msg buffers with
      | error error => exact h
      | ok received =>
          intro k
          rw [Model.dirty_receive hreceive]
          exact h k
  | save stack =>
      by_cases hdirty : s.model.dirty = []
      · have hsave : step send s (.save stack) = s := by simp [step, save, hdirty]
        rw [hsave]
        exact h
      · obtain ⟨saved, channel', hsave, hsaved⟩ := save_cases send stack s.channel hdirty
        rw [KeepsEdits, hsave] at hkeeps
        rw [step, hsave]
        rcases hsaved with ⟨rfl, _⟩ | ⟨⟨error, rfl⟩, _⟩
        · exact fun k => Iff.rfl
        · obtain ⟨key, hkey⟩ := List.exists_mem_of_ne_nil _ hdirty
          exact absurd (hkeeps key hkey) (by simp)

/-- A run of sets, inbound updates and saves on a new model loses no edit exactly when every
save of it that finds dirty keys delivers their update. -/
theorem keeps_edits_iff (send : Outbound → σ → Option ε × σ) (initialState : Bindings)
    (channel : σ) (edits : List Edit) :
    AtEach (step send) { model := .new initialState, channel } edits (KeepsEdits send) ↔
      AtEach (step send) { model := .new initialState, channel } edits (Delivers send) :=
  atEach_iff_of_invariant (I := Tracked) (fun _ => Iff.rfl) (fun _ edit h => keepsEdits_iff h edit)
    (fun _ _ h hkeeps => tracked_step h hkeeps) edits

/-- A channel that throws the first time. -/
def downOnce (_message : Outbound) (up : Bool) : Option Unit × Bool :=
  (if up then none else some (), true)

theorem failed_save_loses_edit :
    ¬ ∀ edits, AtEach (step downOnce) { model := .new [], channel := false } edits
      (KeepsEdits downOnce) := by
  intro h
  have hlost := h [.set "value" (.int 1), .save 1] [.set "value" (.int 1)] (.save 1)
    (List.prefix_refl _)
  exact absurd (hlost (.str "value") (by decide)) (by decide)

end Editing

end Channel

end Front

end Cositos
