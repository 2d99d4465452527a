/-
Message builders and the inbound parser of the Python core (`protocol.py`).
-/
import Cositos.Buffers

namespace Cositos

namespace Value

/-- The elements a `for` loop over the value yields. -/
def iterate : Value → Except PyError (List Value)
  | .list xs | .tuple xs => .ok xs
  | .dict kvs => .ok ((Dict.keys kvs).map Key.toValue)
  | .str s => .ok (chars s)
  | .bin b => .ok (byteInts b)
  | .scalar _ => .error .typeError

/-- `dict(value)`: a copy of a dict, or a dict made from two-element items. -/
def dictOf : Value → Except PyError Bindings
  | .dict kvs => .ok kvs
  | value => do
      let pairs ← value.iterate
      pairs.foldlM (fun kvs pair => do
        match ← pair.iterate with
        | [key, x] => return Dict.set kvs (← key.hashKey) x
        | _ => .error (.valueError "dictionary update sequence element; 2 is required")) []

/-- The bindings of a dict. -/
def bindings : Value → Bindings
  | .dict kvs => kvs
  | _ => []

end Value

namespace Protocol

/-- `PROTOCOL_VERSION_MAJOR`. -/
def versionMajor : Int := 2

/-- `PROTOCOL_VERSION_MINOR`. -/
def versionMinor : Int := 1

/-- `PROTOCOL_VERSION`. -/
def version : String := "2.1.0"

/-- `WIDGET_VIEW_MIMETYPE`. -/
def widgetViewMimetype : String := "application/vnd.jupyter.widget-view+json"

/-- `ANYWIDGET_MODULE_VERSION`. -/
def anywidgetModuleVersion : String := "~0.11.*"

/-- `model_identity`. -/
def modelIdentity (version : String) : Bindings :=
  [(.str "_model_module", .str "anywidget"),
    (.str "_model_name", .str "AnyModel"),
    (.str "_model_module_version", .str version)]

/-- `view_identity`. -/
def viewIdentity (version : String) : Bindings :=
  [(.str "_view_module", .str "anywidget"),
    (.str "_view_name", .str "AnyView"),
    (.str "_view_module_version", .str version),
    (.str "_view_count", .none)]

/-- `_immutable_fields`. -/
def immutableFields (version : String) : Bindings :=
  Dict.update (modelIdentity version) (viewIdentity version)

/-- The `buffer_paths` field of a message. -/
def bufferPathsField (bufferPaths : List Path) : Value :=
  .list (bufferPaths.map Path.toValue)

/-- `build_comm_open`, with the default version: data, buffers and metadata. -/
def buildCommOpen (state : Bindings) :
    Except PyError (Bindings × List Binary × Bindings) := do
  let full := Dict.update (immutableFields anywidgetModuleVersion) state
  let (stripped, bufferPaths, buffers) ← Buffers.removeBuffers (.dict full)
  let data := [(.str "state", stripped), (.str "buffer_paths", bufferPathsField bufferPaths)]
  return (data, buffers, [(.str "version", .str version)])

/-- `build_update`: data and buffers. -/
def buildUpdate (state : Bindings) : Except PyError (Bindings × List Binary) := do
  let (stripped, bufferPaths, buffers) ← Buffers.removeBuffers (.dict state)
  let data := [(.str "method", .str "update"), (.str "state", stripped),
    (.str "buffer_paths", bufferPathsField bufferPaths)]
  return (data, buffers)

/-- `build_custom`. -/
def buildCustom (content : Value) : Bindings :=
  [(.str "method", .str "custom"), (.str "content", content)]

/-- `mimebundle`. -/
def mimebundle (modelId : String) (reprText : String := "") : Bindings :=
  let bundle := [(.str widgetViewMimetype, .dict [
    (.str "version_major", .int versionMajor),
    (.str "version_minor", .int versionMinor),
    (.str "model_id", .str modelId)])]
  if reprText = "" then bundle else Dict.set bundle (.str "text/plain") (.str reprText)

/-- A parsed inbound message: `Update`, `RequestState`, `Custom` or `Ignored`. -/
inductive Message
  | update (state bufferPaths : Value)
  | requestState
  | custom (content : Value)
  | ignored (method : Value)

/-- `data.get(key, default)`. -/
def get (data : Bindings) (key : String) (default : Value) : Value :=
  (data.lookup (.str key)).getD default

/-- `parse_message`. -/
def parseMessage : Value → Message
  | .dict data =>
      match get data "method" .none with
      | .str "update" =>
          .update (get data "state" (.dict [])) (get data "buffer_paths" (.list []))
      | .str "request_state" => .requestState
      | .str "custom" => .custom (get data "content" .none)
      | method => .ignored method
  | _ => .ignored .none

end Protocol

end Cositos
