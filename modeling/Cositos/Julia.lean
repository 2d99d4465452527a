/-
The Julia port (`Cositos.jl`): its recursive split, its merge with 0-based wire
indices, its message builders and its reducer.  A `Vector{UInt8}` is a binary
value; a Julia tuple is no container.  States are trees, so an object is
identified by its position, and a dict lists its pairs in iteration order.
-/
import Cositos.Lifecycle

namespace Cositos

/-- What the modelled Julia code throws. -/
inductive JuliaError
  /-- `ErrorException`. -/
  | error (message : String)
  /-- `error("state nesting exceeds $_MAX_DEPTH levels at path $path")` -/
  | nesting (path : Path)
  /-- `error("cyclic reference detected in state at path $path")` -/
  | cyclic (path : Path)
  /-- `error("Unsupported buffer encoding: $(repr(encoding)) (expected 'base64')")` -/
  | unsupportedEncoding
  /-- `error("duplicate model_id $(repr(model_id)): document keys must be unique")` -/
  | duplicateModelId (modelId : String)
  | keyError
  | boundsError
  | methodError
  | argumentError
  /-- Anything a host function throws. -/
  | host (tag : Nat)
deriving DecidableEq, Repr

namespace Julia

/-- `iscontainer`. -/
def isContainer : Value → Bool
  | .dict _ | .list _ => true
  | .scalar _ | .bin _ | .tuple _ => false

/-! ### Splitting and merging buffers -/

/-- What the split of a container yields. -/
abbrev Split (S : Type) := S × List Path × List Binary

/-- The loop of `_separate` over a dict; `sub` splits a container below it. -/
def separateDict (sub : Path → Value → Except JuliaError (Split Value)) (path : Path) :
    Bindings → Except JuliaError (Split Bindings)
  | [] => .ok ([], [], [])
  | (k, v) :: kvs =>
      match v with
      | .bin b => do
          let (out, bufferPaths, buffers) ← separateDict sub path kvs
          return (out, (path ++ [k]) :: bufferPaths, b :: buffers)
      | v => do
          let (v, innerPaths, innerBuffers) ←
            if isContainer v then sub (path ++ [k]) v else .ok (v, [], [])
          let (out, bufferPaths, buffers) ← separateDict sub path kvs
          return ((k, v) :: out, innerPaths ++ bufferPaths, innerBuffers ++ buffers)

/-- The loop of `_separate` over a vector, from the 0-based index `i` on. -/
def separateVector (sub : Path → Value → Except JuliaError (Split Value)) (path : Path)
    (i : Nat) : List Value → Except JuliaError (Split (List Value))
  | [] => .ok ([], [], [])
  | v :: vs =>
      match v with
      | .bin b => do
          let (out, bufferPaths, buffers) ← separateVector sub path (i + 1) vs
          return (.none :: out, (path ++ [.int i]) :: bufferPaths, b :: buffers)
      | v => do
          let (v, innerPaths, innerBuffers) ←
            if isContainer v then sub (path ++ [.int i]) v else .ok (v, [], [])
          let (out, bufferPaths, buffers) ← separateVector sub path (i + 1) vs
          return (v :: out, innerPaths ++ bufferPaths, innerBuffers ++ buffers)

/-- `_separate` at depth `_MAX_DEPTH + 1 - room`. -/
def separate : Nat → List Path → Path → Value → Except JuliaError (Split Value)
  | room, ancestors, path, sub =>
      if !isContainer sub then
        .ok (sub, [], [])
      else
        match room with
        | 0 => .error (.nesting path)
        | room + 1 =>
            if path ∈ ancestors then
              .error (.cyclic path)
            else
              match sub with
              | .dict kvs => do
                  let (out, bufferPaths, buffers) ←
                    separateDict (separate room (path :: ancestors)) path kvs
                  return (.dict out, bufferPaths, buffers)
              | .list vs => do
                  let (out, bufferPaths, buffers) ←
                    separateVector (separate room (path :: ancestors)) path 0 vs
                  return (.list out, bufferPaths, buffers)
              | sub => .ok (sub, [], [])

/-- `remove_buffers`. -/
def removeBuffers (state : Value) : Except JuliaError (Split Value) :=
  separate (Buffers.maxDepth + 1) [] [] state

/-- `v[key + 1]` of a vector: the 0-based index, if it is in bounds. -/
def vectorIndex (length : Nat) (i : Int) : Except JuliaError Nat :=
  if 0 ≤ i ∧ i < length then .ok i.toNat else .error .boundsError

/-- The integer a path segment stands for; `Bool` is an `Integer`. -/
def integer? : Value → Option Int
  | .int i => some i
  | .bool b => some b.toNat
  | _ => none

/-- One step of a path: `obj[key + 1]` for an integer, `obj[key]` otherwise. -/
def getIndex (obj key : Value) : Except JuliaError Value :=
  match obj, integer? key, key with
  | .list vs, some i, _ | .tuple vs, some i, _ => do
      let n ← vectorIndex vs.length i
      return vs.getD n .none
  | .dict kvs, none, .str s =>
      match kvs.lookup (.str s) with
      | some v => .ok v
      | none => .error .keyError
  | .dict _, _, _ => .error .keyError
  | _, _, _ => .error .methodError

/-- The write at the end of a path. -/
def setIndex (obj key v : Value) : Except JuliaError Value :=
  match obj, integer? key, key with
  | .list vs, some i, _ => do
      let n ← vectorIndex vs.length i
      return .list (vs.set n v)
  | .dict kvs, none, .str s => .ok (.dict (Dict.set kvs (.str s) v))
  | _, _, _ => .error .methodError

/-- The object after the child at `key` has been changed in place. -/
def withIndex (obj key v : Value) : Except JuliaError Value :=
  match obj, integer? key, key with
  | .list vs, some i, _ => do
      let n ← vectorIndex vs.length i
      return .list (vs.set n v)
  | .tuple vs, some i, _ => do
      let n ← vectorIndex vs.length i
      return .tuple (vs.set n v)
  | .dict kvs, none, .str s => .ok (.dict (Dict.set kvs (.str s) v))
  | _, _, _ => .error .methodError

/-- The loop body of `put_buffers!`. -/
def putAt (buf : Binary) : Value → List Value → Except JuliaError Value
  | _, [] => .error .boundsError
  | obj, [last] => setIndex obj last (.bin buf)
  | obj, key :: path => do
      let child ← getIndex obj key
      let child ← putAt buf child path
      withIndex obj key child

/-- What iterating over a collection from the wire yields.  The pairs of a dict
and the characters of a string are opaque: no path can be read off them. -/
def elements : Value → Except JuliaError (List Value)
  | .list vs | .tuple vs => .ok vs
  | .bin b => .ok (Value.byteInts b)
  | .dict kvs => .ok (kvs.map fun _ => .scalar (.other 0))
  | .str s => .ok (s.toList.map fun _ => .scalar (.other 0))
  | .scalar .none | .scalar (.other _) => .error .methodError
  | number => .ok [number]

/-- The segments of a path: it is cut by `path[1:(end - 1)]` and `path[end]`. -/
def segments : Value → Except JuliaError (List Value)
  | .list path | .tuple path => .ok path
  | .bin b => .ok (Value.byteInts b)
  | _ => .error .methodError

/-- The loop of `put_buffers!`. -/
def putEach (state : Value) : List (Value × Binary) → Except JuliaError Value
  | [] => .ok state
  | (path, buf) :: rest => do
      let path ← segments path
      let state ← putAt buf state path
      putEach state rest

/-- `put_buffers!`. -/
def putBuffers (state bufferPaths : Value) (buffers : List Binary) :
    Except JuliaError Value := do
  let bufferPaths ← elements bufferPaths
  if bufferPaths.length ≠ buffers.length then
    .error (.error ("buffer_paths and buffers length mismatch: " ++
      toString bufferPaths.length ++ " != " ++ toString buffers.length))
  else
    putEach state (bufferPaths.zip buffers)

/-! ### Messages -/

/-- `model_identity`. -/
def modelIdentity (version : String) : Bindings :=
  [(.str "_model_module", .str "anywidget"),
    (.str "_model_name", .str "AnyModel"),
    (.str "_model_module_version", .str version)]

/-- `view_identity`. -/
def viewIdentity (version : String) : Bindings :=
  [(.str "_view_module", .str "anywidget"),
    (.str "_view_name", .str "AnyView"),
    (.str "_view_module_version", .str version),
    (.str "_view_count", .none)]

/-- `_immutable_fields`. -/
def immutableFields (version : String) : Bindings :=
  Dict.update (modelIdentity version) (viewIdentity version)

/-- `build_comm_open`, with the default version. -/
def buildCommOpen (state : Bindings) :
    Except JuliaError (Bindings × List Binary × Bindings) := do
  let full := Dict.update (immutableFields Protocol.anywidgetModuleVersion) state
  let (stripped, bufferPaths, buffers) ← removeBuffers (.dict full)
  let data := [(.str "state", stripped),
    (.str "buffer_paths", Protocol.bufferPathsField bufferPaths)]
  return (data, buffers, [(.str "version", .str Protocol.version)])

/-- `build_update`. -/
def buildUpdate (state : Bindings) : Except JuliaError (Bindings × List Binary) := do
  let (stripped, bufferPaths, buffers) ← removeBuffers (.dict state)
  let data := [(.str "method", .str "update"), (.str "state", stripped),
    (.str "buffer_paths", Protocol.bufferPathsField bufferPaths)]
  return (data, buffers)

/-- `parse_message`: `get` wants a dict. -/
def parseMessage : Value → Except JuliaError Protocol.Message
  | .dict data => .ok (Protocol.parseMessage (.dict data))
  | _ => .error .methodError

/-- One pair for `Dict{String,Any}(pairs)`: the first two elements of an item. -/
def insertPair (kvs : Bindings) (item : Value) : Except JuliaError Bindings :=
  match item with
  | .list (.str k :: v :: _) | .tuple (.str k :: v :: _) => .ok (Dict.set kvs (.str k) v)
  | _ => .error .methodError

/-- `Dict{String,Any}(value)`. -/
def dictOf : Value → Except JuliaError Bindings
  | .dict kvs => .ok kvs
  | .list items | .tuple items => items.foldlM insertPair []
  | .bin ⟨_, []⟩ => .ok []
  | .str s => if s = "" then .ok [] else .error .boundsError
  | _ => .error .methodError

/-- The state of an inbound `update` with its buffers put in. -/
def mergeUpdate (state bufferPaths : Value) (buffers : List Binary) :
    Except JuliaError Bindings := do
  let state ← dictOf state
  let merged ← putBuffers (.dict state) bufferPaths buffers
  return merged.bindings

/-- The Julia port. -/
def julia : Port JuliaError where
  immutableFields := immutableFields Protocol.anywidgetModuleVersion
  buildCommOpen := buildCommOpen
  buildUpdate := buildUpdate
  parseMessage := parseMessage
  mergeUpdate := mergeUpdate
  runtimeError := .error

/-! ### The reducer -/

/-- `_reduce_open`. -/
def reduceOpen (phase : Phase) (currentState : Bindings)
    (capabilities : TransportCapabilities) : Except JuliaError (Phase × List Effect) :=
  if phase = .unopened ∨ phase = .closed then do
    let (data, buffers, metadata) ← buildCommOpen
      (Dict.update (immutableFields Protocol.anywidgetModuleVersion) currentState)
    let effects := [.send { msgType := .commOpen, data, buffers, metadata }]
    return (.opened, if capabilities.supportsReceive then effects ++ [.listen] else effects)
  else
    .ok (.opened, [])

/-- `_reduce_send_state`; a `nothing` for `include` sends everything. -/
def reduceSendState (phase : Phase) (include? : Option (List Key))
    (currentState : Bindings) : Except JuliaError (Phase × List Effect) :=
  if phase ≠ .opened then
    .ok (phase, [.error "send_state() requires an open comm; call open() first"])
  else do
    let state := match include? with
      | none => Dict.update (immutableFields Protocol.anywidgetModuleVersion) currentState
      | some keys => currentState.filter fun kv => keys.contains kv.1
    let (data, buffers) ← buildUpdate state
    return (phase, [.send { msgType := .commMsg, data, buffers }])

/-- `_reduce_send_custom`. -/
def reduceSendCustom (phase : Phase) (content : Value) (buffers : List Binary)
    (capabilities : TransportCapabilities) : Phase × List Effect :=
  if phase ≠ .opened then
    (phase, [.error "send_custom() requires an open comm; call open() first"])
  else if !capabilities.supportsCustom then
    (phase, [.error "custom messages are not supported by this transport"])
  else if !capabilities.supportsBuffers && !buffers.isEmpty then
    (phase, [.error "buffers are not supported by this transport"])
  else
    let data := [(.str "method", .str "custom"), (.str "content", content)]
    (phase, [.send { msgType := .commMsg, data, buffers }])

/-- `_reduce_inbound`. -/
def reduceInbound (phase : Phase) (message : Value) (buffers : List Binary)
    (currentState : Bindings) (capabilities : TransportCapabilities) :
    Except JuliaError (Phase × List Effect) :=
  if phase ≠ .opened then
    .ok (phase, [])
  else do
    match ← parseMessage message with
    | .update state bufferPaths =>
        let state ← dictOf state
        let merged ← putBuffers (.dict state) bufferPaths buffers
        return (phase, [.applyState merged.bindings])
    | .requestState =>
        if !capabilities.supportsRequestState then
          return (phase, [])
        else
          reduceSendState phase none currentState
    | .custom content => return (phase, [.invokeCustom content buffers])
    | .ignored _ => return (phase, [])

/-- `_reduce_close`. -/
def reduceClose (phase : Phase) : Phase × List Effect :=
  if phase = .opened then (.closed, [.send { msgType := .commClose, data := [] }])
  else (phase, [])

/-- `reduce`. -/
def reduce (phase : Phase) (event : Event) (currentState : Bindings)
    (capabilities : TransportCapabilities) : Except JuliaError (Phase × List Effect) :=
  match event with
  | .openComm => reduceOpen phase currentState capabilities
  | .sendState include? => reduceSendState phase include? currentState
  | .sendCustom content buffers => .ok (reduceSendCustom phase content buffers capabilities)
  | .inbound message buffers => reduceInbound phase message buffers currentState capabilities
  | .closeComm => .ok (reduceClose phase)
  | .commIdAssigned _ => .ok (.opened, [])

theorem reduceOpen_eq (phase : Phase) (currentState : Bindings)
    (capabilities : TransportCapabilities) :
    reduceOpen phase currentState capabilities =
      julia.reduceOpen phase currentState capabilities := by
  cases phase with
  | opened => rfl
  | unopened | closed =>
      simp only [reduceOpen, Port.reduceOpen, julia, reduceCtorEq, or_false, false_or, if_true]
      cases capabilities.supportsReceive <;> rfl

theorem reduceSendState_eq (phase : Phase) (include? : Option (List Key))
    (currentState : Bindings) :
    reduceSendState phase include? currentState =
      julia.reduceSendState phase include? currentState := rfl

theorem reduceSendCustom_eq (phase : Phase) (content : Value) (buffers : List Binary)
    (capabilities : TransportCapabilities) :
    .ok (reduceSendCustom phase content buffers capabilities) =
      Port.reduceSendCustom (ε := JuliaError) phase content buffers capabilities := by
  unfold reduceSendCustom Port.reduceSendCustom
  split_ifs <;> rfl

theorem reduceInbound_eq (phase : Phase) (message : Value) (buffers : List Binary)
    (currentState : Bindings) (capabilities : TransportCapabilities) :
    reduceInbound phase message buffers currentState capabilities =
      julia.reduceInbound phase message buffers currentState capabilities := by
  by_cases hphase : phase = .opened
  · subst hphase
    cases hmessage : parseMessage message with
    | error e =>
        have hport : julia.parseMessage message = .error e := hmessage
        simp only [reduceInbound, Port.reduceInbound, hmessage, hport]
        rfl
    | ok parsed =>
        rw [julia.reduceInbound_opened hmessage]
        simp only [reduceInbound, hmessage, ne_eq, not_true_eq_false, if_false]
        cases parsed with
        | update state bufferPaths =>
            have hanswer : julia.answer (.update state bufferPaths) buffers currentState
                capabilities = (do
                  let merged ← mergeUpdate state bufferPaths buffers
                  return (.opened, [.applyState merged])) := rfl
            rw [hanswer, mergeUpdate]
            simp only [bind, Except.bind]
            cases dictOf state with
            | error e => rfl
            | ok kvs =>
                cases hput : putBuffers (.dict kvs) bufferPaths buffers <;>
                  simp [hput, pure, Except.pure]
        | requestState | custom content | ignored method => rfl
  · simp [reduceInbound, Port.reduceInbound, hphase]

/-- The reducer is the common one, with the Julia functions in it. -/
theorem reduce_eq (phase : Phase) (event : Event) (currentState : Bindings)
    (capabilities : TransportCapabilities) :
    reduce phase event currentState capabilities =
      julia.reduce phase event currentState capabilities := by
  cases event with
  | openComm => exact reduceOpen_eq phase currentState capabilities
  | sendState include? => exact reduceSendState_eq phase include? currentState
  | sendCustom content buffers => exact reduceSendCustom_eq phase content buffers capabilities
  | inbound message buffers =>
      exact reduceInbound_eq phase message buffers currentState capabilities
  | closeComm =>
      by_cases hphase : phase = .opened <;>
        simp [reduce, Port.reduce, reduceClose, Port.reduceClose, hphase]
  | commIdAssigned id => rfl

end Julia

end Cositos
