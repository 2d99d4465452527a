/-
The Clay wire (`clay.clj`, and `ClayChannel` of `channels.js`): text frames that hold an
envelope of JSON, written and read on the JVM and in the browser, and the channels that
share one socket.  JSON text is written and read by a library of each side.
-/
import Cositos.Portability

namespace Cositos

open Value

namespace Clay

/-! ### Frames -/

/-- The library a side writes and reads JSON text with. -/
structure JsonLibrary where
  write : Value → String
  read : String → Option Value

/-- `prefix`, and `CLAY_PREFIX`. -/
def clayPrefix : String := "cositos "

/-- What a frame says after the prefix, if it begins with it. -/
def payload (frame : String) : Option String :=
  if clayPrefix.toList <+: frame.toList then
    some (String.ofList (frame.toList.drop clayPrefix.toList.length))
  else none

/-- The envelope; no id is left out. -/
def envelope (id : Option String) (msg : Value) (buffers : List Value) : Value :=
  .dict ([(.str "msg", msg), (.str "buffers", .list buffers)] ++
    match id with
    | some id => [(.str "id", .str id)]
    | none => [])

end Clay

namespace Clojure

open Clay Protocol

/-! ### The JVM -/

/-- `build-update`. -/
def buildUpdate (same : Path → Path → Bool) (state : Value) :
    Except ClojureError (Bindings × List Binary) := do
  let (stripped, paths, buffers) ← removeBuffers same state
  return ([(.str "method", .str "update"), (.str "state", stripped),
    (.str "buffer_paths", bufferPathsField paths)], buffers)

/-- `encode-buffers`. -/
def encodeBuffers (byteBuffers : List Binary) : List Value :=
  byteBuffers.map fun buf => .str (Serialize.b64encode buf)

/-- `frame`. -/
def frame (json : JsonLibrary) (id : Option String) (msg : Value) (byteBuffers : List Binary) :
    String :=
  clayPrefix ++ json.write (envelope id msg (encodeBuffers byteBuffers))

/-- `update-frame`. -/
def updateFrame (json : JsonLibrary) (same : Path → Path → Bool) (id : Option String)
    (state : Value) : Except ClojureError String := do
  let (data, buffers) ← buildUpdate same state
  return frame json id (.dict data) buffers

/-- A frame that was parsed. -/
structure Parsed where
  id : Value
  msg : Value
  buffers : List Binary

/-- One turn of `decode-buffers`; `decode` is the basic `java.util.Base64` decoder. -/
def decodeText (decode : String → Option (List UInt8)) : Value → Except ClojureError Binary
  | .str s =>
      match decode s with
      | some raw => .ok ⟨.bytes, raw⟩
      | none => .error .illegalArgument
  | .scalar .none => .error .nullPointer
  | _ => .error .classCast

/-- `(or buffers [])`. -/
def orEmpty : Value → Value
  | .scalar .none | .scalar (.bool false) => .list []
  | buffers => buffers

/-- `parse-frame`: `nil` for what is no frame of ours. -/
def parseFrame (json : JsonLibrary) (decode : String → Option (List UInt8)) (s : Value) :
    Except ClojureError (Option Parsed) :=
  match s with
  | .str s =>
      match payload s with
      | none => .ok none
      | some text =>
          match json.read text with
          | none => .error (.exInfo "JSON error")
          | some v => do
              let encoded ← elements (orEmpty (get v (.str "buffers")))
              let buffers ← encoded.mapM (decodeText decode)
              return some ⟨get v (.str "id"), get v (.str "msg"), buffers⟩
  | _ => .ok none

/-- `apply-inbound`: the parsed message, an update with its buffers merged in.  As many
paths are read as there are buffers. -/
def applyInbound (parsed : Parsed) : Except ClojureError Message :=
  match parseMessage parsed.msg with
  | .update state bufferPaths => do
      let paths ← elements bufferPaths
      let paths ← (paths.take parsed.buffers.length).mapM elements
      let state ← putBuffers state (paths.map fun path => path.map segment) parsed.buffers
      return .update state bufferPaths
  | message => .ok message

end Clojure

namespace Front

open Clay

/-! ### The browser -/

/-- A binary value of a message: an `ArrayBuffer`, or a view of one. -/
inductive Buffer
  | arrayBuffer (bytes : List UInt8)
  | view (buffer : List UInt8) (byteOffset byteLength : Nat)

/-- `toU8`. -/
def Buffer.toU8 : Buffer → List UInt8
  | .arrayBuffer bytes => bytes
  | .view buffer byteOffset byteLength => (buffer.drop byteOffset).take byteLength

/-- `encodeBuffer`: `btoa` of one character for each byte. -/
def encodeBuffer (b : Buffer) : Value := .str (String.ofList (Base64.encode b.toU8))

/-- A channel for Clay: its id, whether a callback is set, and what it was called with. -/
structure ClayChannel where
  id : Option String
  listens : Bool
  delivered : List (Value × List (List UInt8))

/-- The text that `send` sends. -/
def ClayChannel.send (channel : ClayChannel) (json : JsonLibrary) (msg : Value)
    (buffers : List Buffer) : String :=
  clayPrefix ++ json.write (envelope channel.id msg (buffers.map encodeBuffer))

/-- The value, or what a pattern puts in place of `undefined`. -/
def orDefault (value default : Value) : Value :=
  match value with
  | undefined => default
  | value => value

/-- `id === this.#id`. -/
def sameId : Value → Option String → Bool
  | .str s, some t => s = t
  | .none, none => true
  | _, _ => false

/-- `buffers.map(decodeBuffer)`; `atob` of a value, which it makes a string of. -/
def decodeBuffers (atob : Value → Option (List UInt8)) : Value →
    Except JsError (List (List UInt8))
  | .list texts | .tuple texts => texts.mapM fun text =>
      match atob text with
      | some bytes => .ok bytes
      | none => .error .invalidCharacter
  | _ => .error .typeError

/-- `#onFrame`. -/
def ClayChannel.onFrame (channel : ClayChannel) (json : JsonLibrary)
    (atob : Value → Option (List UInt8)) (data : Value) : Except JsError ClayChannel :=
  match data with
  | .str s =>
      match payload s with
      | none => .ok channel
      | some text =>
          match json.read text with
          | none => .error .syntaxError
          | some v => do
              let id ← getProp v (.str "id")
              let msg ← getProp v (.str "msg")
              let buffers ← getProp v (.str "buffers")
              if !sameId (orDefault id .none) channel.id || !channel.listens then
                return channel
              else do
                let buffers ← decodeBuffers atob (orDefault buffers (.list []))
                return { channel with delivered := channel.delivered ++ [(msg, buffers)] }
  | _ => .ok channel

/-- A frame comes in on the socket: every channel sees it, and what one of them throws does
not keep it from the others. -/
def receive (json : JsonLibrary) (atob : Value → Option (List UInt8))
    (channels : List ClayChannel) (data : Value) : List ClayChannel :=
  channels.map fun channel =>
    match channel.onFrame json atob data with
    | .ok channel => channel
    | .error _ => channel

end Front

namespace Clay

/-! ### The envelope on either side -/

/-- Text written by the one library reads, by the other, as the value that was written; an
object may come back with its keys in another order. -/
def JsonLibrary.Carries (writer reader : JsonLibrary) (v : Value) : Prop :=
  ∃ v', reader.read (writer.write v) = some v' ∧ v' ≈ v

theorem payload_prefix (text : String) : payload (clayPrefix ++ text) = some text := by
  rw [payload, String.toList_append, if_pos (List.prefix_append _ _), List.drop_left,
    String.ofList_toList]

/-- Buffers as an envelope holds them. -/
def texts (buffers : List (List UInt8)) : List Value :=
  buffers.map fun raw => .str (String.ofList (Base64.encode raw))

/-- An id as a message tells it. -/
def idValue : Option String → Value
  | some id => .str id
  | none => .none

/-- Fields that read as an envelope. -/
structure Envelops (fields : Bindings) (id : Option String) (msg : Value)
    (buffers : List (List UInt8)) : Prop where
  id : fields.lookup (.str "id") = id.map Value.str
  msg : fields.lookup (.str "msg") = some msg
  buffers : fields.lookup (.str "buffers") = some (.list (texts buffers))

theorem eq_map_of_equiv {α : Type} {f : α → Value} (hf : ∀ a v, v ≈ f a → v = f a)
    {xs : List Value} {as : List α} (h : List.Forall₂ (· ≈ ·) xs (as.map f)) : xs = as.map f := by
  induction as generalizing xs with
  | nil => exact List.forall₂_nil_right_iff.mp h
  | cons a as ih =>
      obtain ⟨x, rest, hhead, htail, rfl⟩ := List.forall₂_cons_right_iff.mp h
      rw [hf a x hhead, ih htail]
      rfl

theorem envelops_of_equiv {v msg : Value} {id : Option String} {buffers : List (List UInt8)}
    (h : v ≈ envelope id msg (texts buffers)) :
    ∃ fields msg', v = .dict fields ∧ Envelops fields id msg' buffers ∧ msg' ≈ msg := by
  obtain ⟨fields, rfl⟩ := exists_dict_of_equiv h
  obtain ⟨msg', hmsg, hequiv⟩ := exists_lookup_of_equiv h (k := .str "msg") (y := msg) rfl
  obtain ⟨list, hlist, hlistequiv⟩ :=
    exists_lookup_of_equiv h (k := .str "buffers") (y := .list (texts buffers)) rfl
  obtain ⟨xs, rfl, hxs⟩ := exists_list_of_equiv hlistequiv
  have htexts : xs = texts buffers := eq_map_of_equiv (fun raw v => eq_scalar_of_equiv) hxs
  rw [htexts] at hlist
  refine ⟨fields, msg', rfl, ⟨?_, hmsg, hlist⟩, hequiv⟩
  cases id with
  | none => exact lookup_eq_none_of_equiv h rfl
  | some id =>
      obtain ⟨x, hx, hxequiv⟩ := exists_lookup_of_equiv h (k := .str "id") (y := .str id) rfl
      rw [hx, eq_scalar_of_equiv hxequiv]
      rfl

/-- What the other side reads of an envelope that was carried. -/
theorem JsonLibrary.Carries.envelops {writer reader : JsonLibrary} {id : Option String}
    {msg : Value} {buffers : List (List UInt8)}
    (h : writer.Carries reader (envelope id msg (texts buffers))) :
    ∃ fields msg', reader.read (writer.write (envelope id msg (texts buffers))) =
      some (.dict fields) ∧ Envelops fields id msg' buffers ∧ msg' ≈ msg := by
  obtain ⟨v, hread, hequiv⟩ := h
  obtain ⟨fields, msg', rfl, henvelops, hmsg⟩ := envelops_of_equiv hequiv
  exact ⟨fields, msg', hread, henvelops, hmsg⟩

end Clay

namespace Clojure

open Clay Protocol

/-! ### Frames on the JVM -/

variable {json writer : JsonLibrary} {decode : String → Option (List UInt8)}

theorem encodeBuffers_eq (byteBuffers : List Binary) :
    encodeBuffers byteBuffers = texts (byteBuffers.map Binary.raw) := by
  rw [encodeBuffers, texts, List.map_map]
  rfl

theorem mapM_decodeText (hdecode : ∀ raw, decode (String.ofList (Base64.encode raw)) = some raw)
    (buffers : List (List UInt8)) :
    (texts buffers).mapM (decodeText decode) = .ok (buffers.map (Binary.mk .bytes)) := by
  apply mapM_of_forall₂
  rw [texts, List.forall₂_map_left_iff, List.forall₂_same]
  intro raw _
  rw [decodeText, hdecode]

/-- What the JVM parses of a frame, whichever side wrote it. -/
theorem parseFrame_carried
    (hdecode : ∀ raw, decode (String.ofList (Base64.encode raw)) = some raw)
    {id : Option String} {msg : Value} {buffers : List (List UInt8)}
    (h : writer.Carries json (envelope id msg (texts buffers))) :
    ∃ msg', parseFrame json decode
        (.str (clayPrefix ++ writer.write (envelope id msg (texts buffers)))) =
      .ok (some ⟨idValue id, msg', buffers.map (Binary.mk .bytes)⟩) ∧ msg' ≈ msg := by
  obtain ⟨fields, msg', hread, henvelops, hmsg⟩ := h.envelops
  refine ⟨msg', ?_, hmsg⟩
  have hid : get (.dict fields) (.str "id") = idValue id := by
    cases id <;> simp [get, henvelops.id, idValue]
  have hget : get (.dict fields) (.str "msg") = msg' := get_dict henvelops.msg
  have hbuffers : elements (orEmpty (get (.dict fields) (.str "buffers"))) =
      .ok (texts buffers) := by
    rw [get_dict henvelops.buffers]
    rfl
  simp only [parseFrame, payload_prefix, hread, hbuffers, bind, Except.bind,
    mapM_decodeText hdecode, hid, hget, pure, Except.pure]

/-- A state of string-keyed maps, vectors, scalars and byte arrays: a vector of the JVM
counts its elements in an `int`. -/
structure Sendable (state : Value) : Prop extends Plain state where
  nesting : state.nesting ≤ Buffers.maxDepth
  lists : ∀ path n, state.look path = some (.list n) → CSharp.ListFits n

/-- The message of an update of the state. -/
def updateMessage (state : Value) : Value :=
  .dict [(.str "method", .str "update"), (.str "state", state.strip),
    (.str "buffer_paths", bufferPathsField (state.binaries.map Prod.fst))]

theorem updateFrame_ok {same : Path → Path → Bool} {state : Value} (hstate : Sendable state)
    (id : Option String) :
    updateFrame json same id state = .ok (frame json id (updateMessage state)
      (state.binaries.map Prod.snd)) := by
  have hsplit : removeBuffers same state = .ok state.split :=
    (Language.split_of_splitter discerns_splitter hstate.wf (untupled_of_json hstate.json)).1
      hstate.nesting
  rw [updateFrame, buildUpdate, hsplit, Value.split, if_pos hstate.container]
  rfl

theorem paths_of_equiv {v : Value} {paths : List Path} (h : v ≈ bufferPathsField paths) :
    v = bufferPathsField paths := by
  obtain ⟨xs, rfl, hxs⟩ := exists_list_of_equiv h
  rw [bufferPathsField, eq_map_of_equiv (fun path v => path_of_equiv) hxs]

/-- The state that a carried update brings, its buffers in their places. -/
theorem applyInbound_update {state msg id : Value} (hstate : Sendable state)
    (hmsg : msg ≈ updateMessage state) :
    ∃ w, applyInbound ⟨id, msg, state.binaries.map Prod.snd⟩ =
      .ok (.update w (bufferPathsField (state.binaries.map Prod.fst))) ∧ w ≈ state := by
  obtain ⟨data, rfl⟩ := exists_dict_of_equiv hmsg
  obtain ⟨method, hmethod, hmethodequiv⟩ :=
    exists_lookup_of_equiv hmsg (k := .str "method") (y := .str "update") rfl
  obtain ⟨stripped, hstripped, hstrippedequiv⟩ :=
    exists_lookup_of_equiv hmsg (k := .str "state") (y := state.strip) rfl
  obtain ⟨paths, hpaths, hpathsequiv⟩ := exists_lookup_of_equiv hmsg (k := .str "buffer_paths")
    (y := bufferPathsField (state.binaries.map Prod.fst)) rfl
  rw [eq_scalar_of_equiv hmethodequiv] at hmethod
  rw [paths_of_equiv hpathsequiv] at hpaths
  have hholds : Merger.Holds (fun _ => True) CSharp.ListFits state := by
    refine ⟨hstate.wf, fun front key l _ => ?_⟩
    cases hlabel : state.look front with
    | none => trivial
    | some label =>
        cases label with
        | scalar s | bin b | dict => trivial
        | tuple n => exact absurd hlabel (Front.look_ne_tuple hstate.json front n)
        | list n => exact hstate.lists front n hlabel
  obtain ⟨w, hput, hw⟩ := Merger.foldlM_strip standard_merger hholds
    (listed_of_json hstate.json) hstate.container hstrippedequiv
  rw [← putBuffers_eq_foldlM] at hput
  refine ⟨w, ?_, hw⟩
  have hparse : parseMessage (.dict data) =
      .update stripped (bufferPathsField (state.binaries.map Prod.fst)) := by
    simp [parseMessage, Protocol.get, hmethod, hstripped, hpaths]
  -- there is a buffer for each path, so that every path is read
  have htake : ((state.binaries.map Prod.fst).map Path.toValue).take
      (state.binaries.map Prod.snd).length = (state.binaries.map Prod.fst).map Path.toValue := by
    rw [List.take_of_length_le (by simp)]
  have hread : ((state.binaries.map Prod.fst).map Path.toValue).mapM elements =
      .ok ((state.binaries.map Prod.fst).map fun path => path.map Key.toValue) := by
    apply mapM_of_forall₂
    rw [List.forall₂_map_left_iff, List.forall₂_same]
    exact fun path _ => rfl
  have hsegments : ((state.binaries.map Prod.fst).map fun path => path.map Key.toValue).map
      (fun path => path.map Value.segment) = state.binaries.map Prod.fst := by
    rw [List.map_map]
    exact List.map_id'' (fun path => segments_toValue path) _
  simp only [applyInbound, hparse, bufferPathsField, elements, bind, Except.bind, htake, hread,
    hsegments, hput, pure, Except.pure]

end Clojure

namespace Front

open Clay

/-! ### Frames in the browser -/

variable {json writer : JsonLibrary} {atob : Value → Option (List UInt8)}

theorem encodeBuffer_eq (buffers : List Buffer) :
    buffers.map encodeBuffer = texts (buffers.map Buffer.toU8) := by
  rw [texts, List.map_map]
  rfl

/-- What a frame holds. -/
structure Content where
  id : Option String
  msg : Value
  buffers : List (List UInt8)

/-- What comes in on the socket: a well-formed frame, as a browser reads it, or something
without the prefix.  An envelope that tells no id leaves it out or has null there, and one
without buffers may leave them out. -/
def Holds (json : JsonLibrary) (atob : Value → Option (List UInt8)) (data : Value) :
    Option Content → Prop
  | none => ∀ s, data = .str s → payload s = none
  | some content => ∃ text fields encoded, data = .str (clayPrefix ++ text) ∧
      json.read text = some (.dict fields) ∧
      (fields.lookup (.str "id") = content.id.map Value.str ∨
        fields.lookup (.str "id") = some .none ∧ content.id = none) ∧
      fields.lookup (.str "msg") = some content.msg ∧
      (fields.lookup (.str "buffers") = some (.list encoded) ∨
        fields.lookup (.str "buffers") = none ∧ encoded = []) ∧
      List.Forall₂ (fun text raw => atob text = some raw) encoded content.buffers

/-- What the callback of a channel with this id is called with. -/
def carried (id : Option String) : Option Content → Option (Value × List (List UInt8))
  | some content => if content.id = id then some (content.msg, content.buffers) else none
  | none => none

/-- Messages that a channel delivers. -/
def ClayChannel.deliver (channel : ClayChannel) (messages : List (Value × List (List UInt8))) :
    ClayChannel :=
  { channel with delivered := channel.delivered ++ messages }

theorem sameId_iff {id id' : Option String} : sameId (idValue id) id' = true ↔ id = id' := by
  cases id <;> cases id' <;> simp [idValue, sameId]

theorem decodeBuffers_ok {encoded : List Value} {buffers : List (List UInt8)}
    (h : List.Forall₂ (fun text raw => atob text = some raw) encoded buffers) :
    decodeBuffers atob (.list encoded) = .ok buffers := by
  rw [decodeBuffers, mapM_of_forall₂ (g := id) (h.imp fun text raw heq => by rw [heq]; rfl),
    List.map_id]

/-- What the callback of the channel is called with in a run of frames, if one is set. -/
def ClayChannel.hears (channel : ClayChannel) (contents : List (Option Content)) :
    List (Value × List (List UInt8)) :=
  if channel.listens then contents.filterMap (carried channel.id) else []

theorem ClayChannel.deliver_nil (channel : ClayChannel) : channel.deliver [] = channel := by
  simp [deliver]

/-- One frame on one channel: the message is delivered if it carries the channel's id. -/
theorem onFrame_holds {data : Value} {content : Option Content}
    (h : Holds json atob data content) (channel : ClayChannel) :
    channel.onFrame json atob data = .ok (channel.deliver (channel.hears [content])) := by
  cases content with
  | none =>
      have hnothing : channel.hears [none] = [] := by simp [ClayChannel.hears, carried]
      rw [hnothing, channel.deliver_nil]
      cases data with
      | scalar s =>
          cases s with
          | str s => rw [ClayChannel.onFrame, h s rfl]
          | none | bool b | int n | float q | other n => rfl
      | bin b => rfl
      | list xs => rfl
      | tuple xs => rfl
      | dict kvs => rfl
  | some content =>
      obtain ⟨text, fields, encoded, rfl, hread, hid, hmsg, hbuffers, hencoded⟩ := h
      have hpropId := getProp_own fields "id" (by decide)
      have hpropMsg := getProp_own fields "msg" (by decide)
      have hpropBuffers := getProp_own fields "buffers" (by decide)
      have hid' : orDefault ((fields.lookup (.str "id")).getD undefined) .none =
          idValue content.id := by
        rcases hid with hid | ⟨hid, hnone⟩
        · rw [hid]
          cases content.id <;> rfl
        · rw [hid, hnone]
          rfl
      have hdecode : decodeBuffers atob
          (orDefault ((fields.lookup (.str "buffers")).getD undefined) (.list [])) =
          .ok content.buffers := by
        rw [← decodeBuffers_ok hencoded]
        rcases hbuffers with hbuffers | ⟨hbuffers, rfl⟩
        · rw [hbuffers]
          rfl
        · rw [hbuffers]
          rfl
      rw [ClayChannel.onFrame, payload_prefix]
      simp only [hread, hpropId, hpropMsg, hpropBuffers, bind, Except.bind, hid', hdecode, hmsg,
        Option.getD_some, pure, Except.pure]
      by_cases hheard : content.id = channel.id ∧ channel.listens = true
      · obtain ⟨hsame, hlistens⟩ := hheard
        have hhears : channel.hears [some content] = [(content.msg, content.buffers)] := by
          simp [ClayChannel.hears, carried, hsame, hlistens]
        rw [sameId_iff.mpr hsame, hhears, hlistens]
        simp only [Bool.not_true, Bool.or_false, Bool.false_eq_true, if_false]
        rw [ClayChannel.deliver, hlistens]
      · have hhears : channel.hears [some content] = [] := by
          rw [not_and'] at hheard
          rw [ClayChannel.hears]
          split_ifs with hlistens
          · simp [carried, hheard hlistens]
          · rfl
        have hreturns : (!sameId (idValue content.id) channel.id || !channel.listens) = true := by
          by_contra hnot
          simp only [Bool.or_eq_true, Bool.not_eq_true', not_or, Bool.not_eq_false] at hnot
          exact hheard ⟨sameId_iff.mp hnot.1, hnot.2⟩
        rw [hhears, channel.deliver_nil, if_pos hreturns]

theorem receive_holds {data : Value} {content : Option Content} (h : Holds json atob data content)
    (channels : List ClayChannel) :
    receive json atob channels data =
      channels.map fun channel => channel.deliver (channel.hears [content]) := by
  rw [receive]
  apply List.map_congr_left
  intro channel _
  rw [onFrame_holds h channel]

theorem ClayChannel.hears_cons (channel : ClayChannel) (content : Option Content)
    (contents : List (Option Content)) :
    channel.hears (content :: contents) = channel.hears [content] ++ channel.hears contents := by
  unfold hears
  split_ifs
  · rw [← List.filterMap_append, List.singleton_append]
  · rfl

/-- A run of frames: each channel delivers what carries its id, in order. -/
theorem foldl_receive {frames : List Value} {contents : List (Option Content)}
    (h : List.Forall₂ (Holds json atob) frames contents) (channels : List ClayChannel) :
    frames.foldl (receive json atob) channels =
      channels.map fun channel => channel.deliver (channel.hears contents) := by
  induction h generalizing channels with
  | nil =>
      rw [List.foldl_nil, List.map_congr_left (g := id), List.map_id]
      intro channel _
      rw [ClayChannel.hears, List.filterMap_nil, ite_self, channel.deliver_nil, id]
  | @cons data content frames contents hhead _ ih =>
      rw [List.foldl_cons, receive_holds hhead, ih, List.map_map]
      apply List.map_congr_left
      intro channel _
      have hhears : (channel.deliver (channel.hears [content])).hears contents =
          channel.hears contents := rfl
      rw [Function.comp_apply, hhears, channel.hears_cons content contents, ClayChannel.deliver,
        ClayChannel.deliver, ClayChannel.deliver, List.append_assoc]

/-- A frame carries the id of one channel at most. -/
theorem carried_once {channels : List ClayChannel}
    (hids : (channels.map ClayChannel.id).Nodup) {content : Option Content}
    {channel channel' : ClayChannel} (hchannel : channel ∈ channels)
    (hchannel' : channel' ∈ channels) (h : (carried channel.id content).isSome = true)
    (h' : (carried channel'.id content).isSome = true) : channel = channel' := by
  cases content with
  | none => simp [carried] at h
  | some content =>
      have hid : content.id = channel.id := by
        by_contra hne
        simp [carried, hne] at h
      have hid' : content.id = channel'.id := by
        by_contra hne
        simp [carried, hne] at h'
      exact List.inj_on_of_nodup_map hids hchannel hchannel' (hid.symm.trans hid')

/-- A frame that another side wrote is well formed in the browser. -/
theorem holds_carried (hatob : ∀ raw, atob (.str (String.ofList (Base64.encode raw))) = some raw)
    {id : Option String} {msg : Value} {buffers : List (List UInt8)}
    (h : writer.Carries json (envelope id msg (texts buffers))) :
    ∃ msg', Holds json atob
        (.str (clayPrefix ++ writer.write (envelope id msg (texts buffers))))
        (some ⟨id, msg', buffers⟩) ∧ msg' ≈ msg := by
  obtain ⟨fields, msg', hread, henvelops, hmsg⟩ := h.envelops
  refine ⟨msg', ⟨_, fields, _, rfl, hread, Or.inl henvelops.id, henvelops.msg,
    Or.inl henvelops.buffers, ?_⟩, hmsg⟩
  rw [texts, List.forall₂_map_left_iff, List.forall₂_same]
  exact fun raw _ => hatob raw

end Front

namespace Clay

open Front

/-! ### The codec -/

/-- The wire is faithful in both directions: the JVM parses what it framed and what a browser's
channel sent, with the id, the message and the bytes; an update comes back with its state; what
the JVM framed is well formed in the browser.  Channels on one socket whose ids differ do not
hear each other's frames: each delivers what carries its id, in order, and nothing else. -/
theorem wire_faithful (jvm js : JsonLibrary) (decode : String → Option (List UInt8))
    (atob : Value → Option (List UInt8)) (same : Path → Path → Bool)
    (hdecode : ∀ raw, decode (String.ofList (Base64.encode raw)) = some raw)
    (hatob : ∀ raw, atob (.str (String.ofList (Base64.encode raw))) = some raw) :
    (∀ id msg byteBuffers,
      jvm.Carries jvm (envelope id msg (Clojure.encodeBuffers byteBuffers)) →
      ∃ parsed, Clojure.parseFrame jvm decode (.str (Clojure.frame jvm id msg byteBuffers)) =
          .ok (some parsed) ∧ parsed.id = idValue id ∧ parsed.msg ≈ msg ∧
        parsed.buffers = (byteBuffers.map Binary.raw).map (Binary.mk .bytes)) ∧
    (∀ (channel : ClayChannel) msg buffers,
      js.Carries jvm (envelope channel.id msg (buffers.map encodeBuffer)) →
      ∃ parsed, Clojure.parseFrame jvm decode (.str (channel.send js msg buffers)) =
          .ok (some parsed) ∧ parsed.id = idValue channel.id ∧ parsed.msg ≈ msg ∧
        parsed.buffers = (buffers.map Buffer.toU8).map (Binary.mk .bytes)) ∧
    (∀ id state, Clojure.Sendable state →
      jvm.Carries jvm (envelope id (Clojure.updateMessage state)
        (Clojure.encodeBuffers (state.binaries.map Prod.snd))) →
      ∃ text parsed w bufferPaths, Clojure.updateFrame jvm same id state = .ok text ∧
        Clojure.parseFrame jvm decode (.str text) = .ok (some parsed) ∧
        Clojure.applyInbound parsed = .ok (.update w bufferPaths) ∧ w ≈ state) ∧
    (∀ id msg byteBuffers,
      jvm.Carries js (envelope id msg (Clojure.encodeBuffers byteBuffers)) →
      ∃ msg', Holds js atob (.str (Clojure.frame jvm id msg byteBuffers))
        (some ⟨id, msg', byteBuffers.map Binary.raw⟩) ∧ msg' ≈ msg) ∧
    (∀ channels frames contents, (channels.map ClayChannel.id).Nodup →
      List.Forall₂ (Holds js atob) frames contents →
      frames.foldl (receive js atob) channels =
          channels.map (fun channel => channel.deliver (channel.hears contents)) ∧
        ∀ content ∈ contents, ∀ channel ∈ channels, ∀ channel' ∈ channels,
          (carried channel.id content).isSome = true →
          (carried channel'.id content).isSome = true → channel = channel') := by
  refine ⟨fun id msg byteBuffers h => ?_, fun channel msg buffers h => ?_,
    fun id state hstate h => ?_, fun id msg byteBuffers h => ?_,
    fun channels frames contents hids h => ⟨foldl_receive h channels,
      fun content _ channel hchannel channel' hchannel' => carried_once hids hchannel hchannel'⟩⟩
  · rw [Clojure.encodeBuffers_eq] at h
    obtain ⟨msg', hparse, hmsg⟩ := Clojure.parseFrame_carried hdecode h
    rw [Clojure.frame, Clojure.encodeBuffers_eq]
    exact ⟨_, hparse, rfl, hmsg, rfl⟩
  · rw [encodeBuffer_eq] at h
    obtain ⟨msg', hparse, hmsg⟩ := Clojure.parseFrame_carried hdecode h
    rw [ClayChannel.send, encodeBuffer_eq]
    exact ⟨_, hparse, rfl, hmsg, rfl⟩
  · rw [Clojure.encodeBuffers_eq] at h
    obtain ⟨msg', hparse, hmsg⟩ := Clojure.parseFrame_carried hdecode h
    have hbuffers : ((state.binaries.map Prod.snd).map Binary.raw).map (Binary.mk .bytes) =
        state.binaries.map Prod.snd := by
      rw [List.map_map, List.map_map]
      exact hstate.buffers
    rw [hbuffers] at hparse
    obtain ⟨w, happly, hw⟩ := Clojure.applyInbound_update hstate hmsg
    refine ⟨_, _, w, _, Clojure.updateFrame_ok hstate id, ?_, happly, hw⟩
    rw [Clojure.frame, Clojure.encodeBuffers_eq]
    exact hparse
  · rw [Clojure.encodeBuffers_eq] at h
    rw [Clojure.frame, Clojure.encodeBuffers_eq]
    exact holds_carried hatob h

end Clay

namespace ClayWitness

open Clay

/-- `{"image": b"A"}`. -/
def state : Value := .dict [(.str "image", .bin ⟨.bytes, [65]⟩)]

/-- The message of its update, and the envelope for the widget `a`. -/
def msg : Value :=
  .dict [(.str "method", .str "update"), (.str "state", .dict []),
    (.str "buffer_paths", .list [.list [.str "image"]])]

def image : Value :=
  .dict [(.str "msg", msg), (.str "buffers", .list [.str "QQ=="]), (.str "id", .str "a")]

def imageText : String :=
  "\x7b\"msg\":\x7b\"method\":\"update\",\"state\":\x7b\x7d," ++
    "\"buffer_paths\":[[\"image\"]]\x7d,\"buffers\":[\"QQ==\"],\"id\":\"a\"\x7d"

/-- A library, on that one value. -/
def library : JsonLibrary where
  write _ := imageText
  read text := if text = imageText then some image else none

def decode (s : String) : Option (List UInt8) := Base64.decode s.toList

def atob : Value → Option (List UInt8)
  | .str s => Base64.decode s.toList
  | _ => none

theorem carries_image : library.Carries library image :=
  ⟨image, by simp [library], Setoid.refl image⟩

theorem sendable_state : Clojure.Sendable state where
  wf := by decide
  json := by decide
  container := rfl
  raw := by decide
  nesting := by decide
  lists := by
    intro path n hlook
    cases path with
    | nil => simp [state, Value.look, Value.label] at hlook
    | cons key path =>
        obtain ⟨c, hc, hlook⟩ := Option.bind_eq_some_iff.mp hlook
        rw [state, child_dict] at hc
        have hmem := Dict.mem_of_lookup hc
        simp only [List.mem_singleton, Prod.mk.injEq] at hmem
        rw [hmem.2, look_bin] at hlook
        split_ifs at hlook
        cases hlook

/-- Two channels on one socket, for the widget `a` and for the only widget. -/
def channels : List Front.ClayChannel := [⟨some "a", true, []⟩, ⟨none, true, []⟩]

/-- What comes in: a frame for `a` between two of Clay's own. -/
def frames : List Value :=
  [.str "refresh", .str (clayPrefix ++ imageText), .str "loading"]

def contents : List (Option Front.Content) := [none, some ⟨some "a", msg, [[65]]⟩, none]

theorem holds_frames : List.Forall₂ (Front.Holds library atob) frames contents := by
  have hforeign : ∀ s, payload s = none → Front.Holds library atob (.str s) none := by
    intro s hs s' heq
    cases heq
    exact hs
  have hread : Front.Holds library atob (.str (clayPrefix ++ imageText))
      (some ⟨some "a", msg, [[65]]⟩) := by
    refine ⟨imageText, [(.str "msg", msg), (.str "buffers", .list [.str "QQ=="]),
      (.str "id", .str "a")], [.str "QQ=="], rfl, by simp [library, image], Or.inl rfl, rfl,
      Or.inl rfl, ?_⟩
    exact .cons (by decide) .nil
  exact .cons (hforeign _ (by decide)) (.cons hread (.cons (hforeign _ (by decide)) .nil))

end ClayWitness

namespace Clay

open Front ClayWitness in
theorem wire_faithful_image :
    (∃ parsed, Clojure.parseFrame library decode
        (.str (Clojure.frame library (some "a") msg [⟨.bytes, [65]⟩])) = .ok (some parsed) ∧
      parsed.id = .str "a" ∧ parsed.msg ≈ msg ∧ parsed.buffers = [⟨.bytes, [65]⟩]) ∧
    (∃ parsed, Clojure.parseFrame library decode (.str (ClayChannel.send ⟨some "a", true, []⟩
        library msg [.view [0, 65, 0] 1 1])) = .ok (some parsed) ∧
      parsed.id = .str "a" ∧ parsed.msg ≈ msg ∧ parsed.buffers = [⟨.bytes, [65]⟩]) ∧
    (∃ text parsed w bufferPaths,
      Clojure.updateFrame library (fun _ _ => true) (some "a") state = .ok text ∧
        Clojure.parseFrame library decode (.str text) = .ok (some parsed) ∧
        Clojure.applyInbound parsed = .ok (.update w bufferPaths) ∧ w ≈ state) ∧
    frames.foldl (receive library atob) channels =
      [⟨some "a", true, [(msg, [[65]])]⟩, ⟨none, true, []⟩] := by
  have hfaithful := wire_faithful library library decode atob (fun _ _ => true)
    (fun raw => by simp [decode, Base64.decode_encode])
    (fun raw => by simp [atob, Base64.decode_encode])
  obtain ⟨hframe, hsend, hupdate, -, hroute⟩ := hfaithful
  exact ⟨hframe (some "a") msg [⟨.bytes, [65]⟩] carries_image,
    hsend ⟨some "a", true, []⟩ msg [.view [0, 65, 0] 1 1] carries_image,
    hupdate (some "a") state sendable_state carries_image,
    (hroute channels frames contents (by decide) holds_frames).1⟩

end Clay

end Cositos
