/-
The Widget State document in the other languages: they write the records as
Python does, and each reads them with its own lookups, conversions and merge.
Base64 text is decoded by a library of each language.
-/
import Cositos.Languages
import Cositos.Serialize

namespace Cositos

open Buffers Protocol

/-! ### Writing -/

/-- What a language writes a document with. -/
structure Dumper (ε : Type) where
  removeBuffers : Value → Except ε (Split Value)
  /-- A field of the state, or what stands in for it. -/
  field : Bindings → String → Value → Value
  emptyModelId : ε
  duplicateModelId : String → ε

namespace Dumper

variable {ε : Type} (dumper : Dumper ε)

/-- `dump_model`. -/
def dumpModel (anywidgetVersion : String) (entry : String × Bindings) :
    Except ε (String × Bindings) := do
  let (modelId, state) := entry
  let (stripped, paths, buffers) ← dumper.removeBuffers (.dict state)
  let record := [
    (.str "model_name", dumper.field state "_model_name" (.str "AnyModel")),
    (.str "model_module", dumper.field state "_model_module" (.str "anywidget")),
    (.str "model_module_version",
      dumper.field state "_model_module_version" (.str anywidgetVersion)),
    (.str "state", stripped)]
  return (modelId,
    if buffers.isEmpty then record
    else Dict.set record (.str "buffers")
      (.list (List.zipWith Serialize.bufferRecord paths buffers)))

/-- One turn of the loop in `dump_document`. -/
def dumpEntry (anywidgetVersion : String) (state : Bindings) (entry : String × Bindings) :
    Except ε Bindings := do
  let (modelId, record) ← dumper.dumpModel anywidgetVersion entry
  if modelId = "" then
    .error dumper.emptyModelId
  else if .str modelId ∈ Dict.keys state then
    .error (dumper.duplicateModelId modelId)
  else
    return Dict.set state (.str modelId) (.dict record)

/-- `dump_document`. -/
def dumpDocument (anywidgetVersion : String) (entries : List (String × Bindings)) :
    Except ε Bindings := do
  let state ← entries.foldlM (dumper.dumpEntry anywidgetVersion) []
  return [
    (.str "version_major", .int Serialize.stateVersionMajor),
    (.str "version_minor", .int Serialize.stateVersionMinor),
    (.str "state", .dict state)]

end Dumper

/-- A segment of a path off the wire.  No container names a child. -/
def Value.segment : Value → Key
  | .scalar s => s.key
  | _ => .other 0

namespace Julia

/-- `dump_document` in Julia. -/
def dumper : Dumper JuliaError where
  removeBuffers := removeBuffers
  field := get
  emptyModelId := .error "model_id must be a non-empty string (it is the document key)"
  duplicateModelId := .duplicateModelId

/-- `_decode_buffer`; `decode` is `base64decode`. -/
def decodeBuffer (decode : String → Option (List UInt8)) (entry : Value) :
    Except JuliaError Binary :=
  match entry with
  | .dict fields =>
      match get fields "encoding" .none with
      | .str "base64" => do
          let data ← getIndex entry (.str "data")
          match data with
          | .str s =>
              match decode s with
              | some raw => .ok ⟨.bytes, raw⟩
              | none => .error .argumentError
          | _ => .error .methodError
      | _ => .error .unsupportedEncoding
  | _ => .error .methodError

/-- `load_model`.  The deep copy of a tree is the tree. -/
def loadModel (decode : String → Option (List UInt8)) (item : Key × Value) :
    Except JuliaError (Key × Value) := do
  let (modelId, record) := item
  let state ← getIndex record (.str "state")
  let entries ← elements (get record.bindings "buffers" (.list []))
  let bufferPaths ← entries.mapM fun entry => getIndex entry (.str "path")
  let buffers ← entries.mapM (decodeBuffer decode)
  let state ← putBuffers state (.list bufferPaths) buffers
  return (modelId, state)

/-- `model_id, record = item`: the first two elements of any collection. -/
def destructure (item : Value) : Except JuliaError (Key × Value) := do
  match ← elements item with
  | modelId :: record :: _ => .ok (modelId.segment, record)
  | _ => .error .boundsError

/-- One turn of the loop in `load_document`, for an item that is not a pair of a dict. -/
def loadItem (decode : String → Option (List UInt8)) (item : Value) :
    Except JuliaError (Key × Value) := do
  let item ← destructure item
  loadModel decode item

/-- `load_document`: whatever `doc["state"]` iterates over.  A character is no pair. -/
def loadDocument (decode : String → Option (List UInt8)) (doc : Bindings) :
    Except JuliaError (List (Key × Value)) :=
  match doc.lookup (.str "state") with
  | some (.dict records) => records.mapM (loadModel decode)
  | some (.str s) => if s = "" then .ok [] else .error .boundsError
  | some state => do
      let items ← elements state
      items.mapM (loadItem decode)
  | none => .error .keyError

end Julia

namespace CSharp

/-- `state.GetValueOrDefault(key) ?? default`. -/
def field (state : Bindings) (key : String) (default : Value) : Value :=
  match get state key .none with
  | .scalar .none => default
  | value => value

/-- `DumpDocument`. -/
def dumper : Dumper CSharpError where
  removeBuffers := removeBuffers
  field := field
  emptyModelId := .argument "model_id must be a non-empty string (it is the document key)"
  duplicateModelId := .duplicateModelId

/-- `DecodeBuffer`; `decode` is `Convert.FromBase64String`. -/
def decodeBuffer (decode : String → Option (List UInt8)) (entry : Value) :
    Except CSharpError Binary :=
  match get entry.bindings "encoding" .none with
  | .str "base64" => do
      let data ← index entry (.str "data")
      match data with
      | .str s =>
          match decode s with
          | some raw => .ok ⟨.bytes, raw⟩
          | none => .error .format
      | .scalar .none => .error .argumentNull
      | _ => .error .invalidCast
  | encoding => .error (.unsupportedEncoding encoding)

/-- One turn of the loop in `LoadModel`. -/
def loadEntry (decode : String → Option (List UInt8)) (entry : Value) :
    Except CSharpError (Path × Binary) := do
  let path ← index entry (.str "path")
  match path with
  | .list segments => do
      let buf ← decodeBuffer decode entry
      return (segments.map Value.segment, buf)
  | .scalar .none => .error .argumentNull
  | _ => .error .invalidCast

/-- `record.GetValueOrDefault("buffers") as List<object?> ?? new List<object?>()`. -/
def bufferEntries (record : Bindings) : List Value :=
  match get record "buffers" .none with
  | .list entries => entries
  | _ => []

/-- `LoadModel`. -/
def loadModel (decode : String → Option (List UInt8)) (item : Key × Value) :
    Except CSharpError (Key × Value) := do
  let (modelId, record) := item
  let state ← index record (.str "state")
  let loaded ← (bufferEntries record.bindings).mapM (loadEntry decode)
  let state ← putBuffers state (loaded.map Prod.fst) (loaded.map Prod.snd)
  return (modelId, state)

/-- `LoadDocument`. -/
def loadDocument (decode : String → Option (List UInt8)) (doc : Bindings) :
    Except CSharpError (List (Key × Value)) :=
  match doc.lookup (.str "state") with
  | some (.dict records) => records.mapM (loadModel decode)
  | some (.scalar .none) => .error .argumentNull
  | some _ => .error .invalidCast
  | none => .error .keyNotFound

end CSharp

namespace Clojure

/-- `dump-document`. -/
def dumper (same : Path → Path → Bool) : Dumper ClojureError where
  removeBuffers := removeBuffers same
  field := Protocol.get
  emptyModelId := .exInfo "model_id must be a non-empty string (it is the document key)"
  duplicateModelId := .duplicateModelId

/-- What `mapv` and destructuring run through. -/
def elements : Value → Except ClojureError (List Value)
  | .scalar .none => .ok []
  | .list xs | .tuple xs => .ok xs
  | .dict kvs => .ok (kvs.map fun _ => .scalar (.other 0))
  | .bin b => .ok (Value.byteInts b)
  | .str s => .ok (s.toList.map fun _ => .scalar (.other 0))
  | _ => .error .illegalArgument

/-- `decode-buffer`; `decode` is the basic `java.util.Base64` decoder. -/
def decodeBuffer (decode : String → Option (List UInt8)) (entry : Value) :
    Except ClojureError Binary :=
  match get entry (.str "encoding") with
  | .str "base64" =>
      match get entry (.str "data") with
      | .str s =>
          match decode s with
          | some raw => .ok ⟨.bytes, raw⟩
          | none => .error .illegalArgument
      | .scalar .none => .error .nullPointer
      | _ => .error .classCast
  | encoding => .error (.unsupportedEncoding encoding)

/-- `load-model`. -/
def loadModel (decode : String → Option (List UInt8)) (item : Key × Value) :
    Except ClojureError (Key × Value) := do
  let (modelId, record) := item
  let state := get record (.str "state")
  let entries ← elements (Protocol.get record.bindings "buffers" (.list []))
  let paths := entries.map fun entry => get entry (.str "path")
  let buffers ← entries.mapM (decodeBuffer decode)
  let paths ← paths.mapM elements
  let state ← putBuffers state (paths.map fun path => path.map Value.segment) buffers
  return (modelId, state)

/-- `[model-id record]`, by `nth`: an element that is missing is `nil`. -/
def destructure (item : Value) : Except ClojureError (Key × Value) :=
  match item with
  | .dict _ | .scalar (.bool _) | .scalar (.int _) | .scalar (.float _) | .scalar (.other _) =>
      .error .unsupportedOperation
  | item => do
      let xs ← elements item
      return ((xs.getD 0 .none).segment, xs.getD 1 .none)

/-- One turn of the loop in `load-document`, for an item that is not a map entry. -/
def loadItem (decode : String → Option (List UInt8)) (item : Value) :
    Except ClojureError (Key × Value) := do
  let item ← destructure item
  loadModel decode item

/-- `load-document`: whatever `mapv` runs through, and nothing for `nil`. -/
def loadDocument (decode : String → Option (List UInt8)) (doc : Bindings) :
    Except ClojureError (List (Key × Value)) :=
  match doc.lookup (.str "state") with
  | some (.dict records) => records.mapM (loadModel decode)
  | some state => do
      let items ← elements state
      items.mapM (loadItem decode)
  | none => .ok []

end Clojure

namespace Language

/-- `dump_document` of each. -/
def dumpDocument (same : Path → Path → Bool) (anywidgetVersion : String) :
    (language : Language) → List (String × Bindings) → Except language.Error Bindings
  | .python, entries => Serialize.dumpDocument entries anywidgetVersion
  | .julia, entries => Julia.dumper.dumpDocument anywidgetVersion entries
  | .csharp, entries => CSharp.dumper.dumpDocument anywidgetVersion entries
  | .clojure, entries => (Clojure.dumper same).dumpDocument anywidgetVersion entries

/-- The base64 decoders of the languages' libraries, Python's apart. -/
structure Decoders where
  julia : String → Option (List UInt8)
  csharp : String → Option (List UInt8)
  clojure : String → Option (List UInt8)

/-- Each decodes what the standard encoder writes. -/
structure Decoders.Lossless (decoders : Decoders) : Prop where
  julia : ∀ raw, decoders.julia (String.ofList (Base64.encode raw)) = some raw
  csharp : ∀ raw, decoders.csharp (String.ofList (Base64.encode raw)) = some raw
  clojure : ∀ raw, decoders.clojure (String.ofList (Base64.encode raw)) = some raw

/-- `load_document` of each. -/
def loadDocument (decoders : Decoders) :
    (language : Language) → Bindings → Except language.Error (List (Key × Value))
  | .python, doc => Serialize.loadDocument doc
  | .julia, doc => Julia.loadDocument decoders.julia doc
  | .csharp, doc => CSharp.loadDocument decoders.csharp doc
  | .clojure, doc => Clojure.loadDocument decoders.clojure doc

/-- What the JSON reader of a language makes of a text: its objects may list
their keys in any order, and its lists hold what the language's lists can hold. -/
structure Reads (language : Language) (text doc : Value) : Prop where
  wf : doc.Wf
  equiv : doc ≈ text
  lists : language = .csharp ∨ language = .clojure →
    ∀ path n, doc.look path = some (.list n) → CSharp.ListFits n

end Language

end Cositos
