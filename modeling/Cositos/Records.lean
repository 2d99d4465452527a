/-
The records of a document, as the four ports read them (`load_model`): what each of them
wants of a record, told by the record's own fields and by what its `put_buffers` takes.
-/
import Cositos.Portability
import Cositos.RMerge

namespace Cositos

open Value

/-! ### The R loader -/

namespace R

/-- `names(x)`: only an object has any. -/
def names : Value → List Key
  | .dict kvs => Dict.keys kvs
  | _ => []

/-- What `lapply` runs through. -/
def elements : RObject → List RObject
  | .null => []
  | .atom s => [.atom s]
  | .raw bytes => bytes.map fun byte => .raw [("", byte.2)]
  | .list items => items.map Prod.snd

/-- `name %in% names(x)`. -/
def hasName : RObject → String → Bool
  | .list items, name => items.any fun item => item.1 == name
  | .raw bytes, name => bytes.any fun byte => byte.1 == name
  | _, _ => false

/-- A segment of a path off the wire.  `TRUE` selects the first element and is not counted
from zero. -/
def segment : RObject → Key
  | .null => .none
  | .atom (.bool b) => .int (if b then 0 else -1)
  | .atom s => s.key
  | .raw _ | .list _ => .other 0

/-- The path `.put_one` takes apart with `path[[1]]` and `path[-1]`. -/
def pathOf : RObject → Path
  | .null => [.none]
  | path => (elements path).map segment

/-- `base64_dec`; `decode` is the decoder of the text. -/
def base64Dec (decode : String → Option (List UInt8)) (input : RObject) :
    Except RError (List UInt8) :=
  let decoded := match input with
    | .atom (.str s) => decode s
    | .raw bytes => decode (String.ofList (bytes.map fun byte => Char.ofNat byte.2.toNat))
    | _ => none
  match decoded with
  | some raw => .ok raw
  | none => .error .base64

/-- `.decode_buffer`. -/
def decodeBuffer (decode : String → Option (List UInt8)) (entry : RObject) :
    Except RError Binary := do
  let encoding ← getOne entry (.name "encoding")
  match encoding with
  | .atom (.str "base64") => do
      let data ← getOne entry (.name "data")
      let raw ← base64Dec decode data
      return ⟨.bytes, raw⟩
  | _ => .error .unsupportedEncoding

/-- `load_model`. -/
def loadModel (decode : String → Option (List UInt8)) (item : Key × RObject) :
    Except RError (Key × RObject) := do
  let (modelId, record) := item
  let state ← getOne record (.name "state")
  let entries ←
    if hasName record "buffers" then getOne record (.name "buffers") else .ok (.list [])
  let paths ← (elements entries).mapM fun e => getOne e (.name "path")
  let buffers ← (elements entries).mapM (decodeBuffer decode)
  let state ← putBuffers state (paths.map pathOf) buffers
  return (modelId, state)

/-- `load_document`. -/
def loadDocument (decode : String → Option (List UInt8)) (doc : Bindings) :
    Except RError (List (Key × RObject)) :=
  let st := getElement (.dict doc) (.str "state")
  (names st).mapM fun id => loadModel decode (id, (getElement st id).toR)

theorem getOne_dict {name : String} (hname : name ≠ "") (data : Bindings) :
    getOne (Value.dict data).toR (.name name) =
      .ok ((data.lookup (.str name)).elim .null toR) := by
  rw [getOne_name hname]
  cases data.lookup (.str name) <;> rfl

theorem hasName_dict {name : String} (hname : name ≠ "") (data : Bindings) :
    hasName (Value.dict data).toR name = (data.lookup (.str name)).isSome := by
  have hentries : (toREntries data).any (fun item => item.1 == name) =
      (data.lookup (.str name)).isSome := by
    induction data with
    | nil => rfl
    | cons head tail ih =>
        obtain ⟨k, x⟩ := head
        by_cases hk : k = .str name
        · subst hk
          simp [toREntries, nameOf, List.lookup_cons_self]
        · have hother : nameOf k ≠ name := by
            cases k <;> first | exact Ne.symm hname | exact fun h => hk (by rw [← h, nameOf])
          rw [toREntries, List.any_cons, ih, Dict.lookup_cons_ne (Ne.symm hk)]
          simp [hother]
  exact hentries

theorem elements_list (xs : List Value) : elements (Value.list xs).toR = xs.map toR := by
  rw [toR, elements, toRSeq_eq, List.map_map]
  rfl

end R

namespace Envelope

/-! ### The ports -/

/-- The ports of the core to other languages. -/
inductive Port
  | julia
  | csharp
  | r
  | clojure
deriving DecidableEq, Repr

/-- What the port raises. -/
def Port.Error : Port → Type
  | .julia => JuliaError
  | .csharp => CSharpError
  | .r => RError
  | .clojure => ClojureError

/-- What a state is in the port. -/
def Port.State : Port → Type
  | .julia | .csharp | .clojure => Value
  | .r => RObject

/-- A base64 decoder for each port. -/
abbrev Decode := Port → String → Option (List UInt8)

variable (decode : Decode)

/-- `load_document` of each port. -/
def Port.loadDocument : (port : Port) → Bindings → Except port.Error (List (Key × port.State))
  | .julia => Julia.loadDocument (decode .julia)
  | .csharp => CSharp.loadDocument (decode .csharp)
  | .r => R.loadDocument (decode .r)
  | .clojure => Clojure.loadDocument (decode .clojure)

/-- What a turn of its loop makes of an entry of the state.  R finds nothing under the
empty id. -/
def Port.loadEntry : (port : Port) → Key × Value → Except port.Error (Key × port.State)
  | .julia => Julia.loadModel (decode .julia)
  | .csharp => CSharp.loadModel (decode .csharp)
  | .r => fun (id, record) =>
      R.loadModel (decode .r) (id, if id = .str "" then .null else record.toR)
  | .clojure => Clojure.loadModel (decode .clojure)

/-! ### What a port wants of a record -/

/-- What an object has under a name; nothing, if it is no object. -/
def field (v : Value) (name : String) : Option Value := v.bindings.lookup (.str name)

/-- Neither `null` nor a container. -/
def isAtom : Value → Bool
  | .scalar s => s ≠ .none
  | _ => false

/-- No elements to run through, though it is no array. -/
def isVoid : Value → Bool
  | .dict kvs => kvs.isEmpty
  | .scalar (.str s) => s = ""
  | _ => false

/-- The state in a record.  Julia and C# insist on one; Clojure goes on with `nil`, and R
with `NULL`, if the record is something that can have names. -/
def Port.state : Port → Value → Option Value
  | .julia, record | .csharp, record => field record "state"
  | .clojure, record => some ((field record "state").getD .none)
  | .r, record => if isAtom record then none else some ((field record "state").getD .none)

/-- The entries in `buffers` that is no array: C# takes there to be none, R those of an
object, and the others what is void. -/
def Port.otherEntries : Port → Value → Option (List Value)
  | .csharp, _ => some []
  | .r, .dict named => some (named.map Prod.snd)
  | .r, buffers => if isAtom buffers then none else some []
  | .julia, buffers => if isVoid buffers then some [] else none
  | .clojure, buffers => if isVoid buffers ∨ buffers.label = .scalar .none then some [] else none

/-- The entries in a record's `buffers`. -/
def Port.entries (port : Port) (record : Value) : Option (List Value) :=
  match field record "buffers" with
  | none => some []
  | some (.list entries) => some entries
  | some buffers => port.otherEntries buffers

/-- The path of an entry can be read: Julia wants one, C# an array, and Clojure anything that
can be run through. -/
def Port.PathFits : Port → Option Value → Prop
  | .julia, path => path ≠ none
  | .csharp, path => ∃ segments, path = some (.list segments)
  | .clojure, path => ∀ s, path = some (.scalar s) → s = .none ∨ ∃ name, s = .str name
  | .r, _ => True

/-- The entry holds the buffer as base64 text. -/
def Holds (decode : String → Option (List UInt8)) (entry : Value) (buffer : Binary) : Prop :=
  field entry "encoding" = some (.str "base64") ∧ buffer.type = .bytes ∧
    ∃ s, field entry "data" = some (.str s) ∧ decode s = some buffer.raw

/-- The path of an entry, `null` if it has none. -/
def pathIn (entry : Value) : Value := (field entry "path").getD .none

/-- What is run through in a path. -/
def segments (path : Value) : List Value :=
  match Clojure.elements path with
  | .ok segments => segments
  | .error _ => []

/-- `put_buffers` of the port takes in the buffers under the paths. -/
def Port.Takes : Port → Value → List Value → List Binary → Prop
  | .julia, state, paths, buffers => ∃ w, Julia.putBuffers state (.list paths) buffers = .ok w
  | .csharp, state, paths, buffers =>
      ∃ w, CSharp.putBuffers state (paths.map fun path => (segments path).map segment) buffers =
        .ok w
  | .r, state, paths, buffers =>
      ∃ w, R.putBuffers state.toR (paths.map fun path => R.pathOf path.toR) buffers = .ok w
  | .clojure, state, paths, buffers =>
      ∃ w, Clojure.putBuffers state (paths.map fun path => (segments path).map segment) buffers =
        .ok w

/-- The port can read the record: it finds a state and entries, each entry has a path that it
reads and base64 text, and the buffers fit into the state. -/
def Port.Reads (port : Port) (decode : String → Option (List UInt8)) (record : Value) : Prop :=
  ∃ state entries buffers, port.state record = some state ∧ port.entries record = some entries ∧
    (∀ entry ∈ entries, port.PathFits (field entry "path")) ∧
    List.Forall₂ (Holds decode) entries buffers ∧
    port.Takes state (entries.map pathIn) buffers

/-! ### A port loads what it can read -/

/-- What JSON text can hold. -/
structure Textual (v : Value) : Prop where
  wf : v.Wf
  json : v.json = true
  bare : v.binaries = []

theorem Textual.child {v c : Value} (h : Textual v) {k : Key} (hc : v.child k = some c) :
    Textual c where
  wf := h.wf.child (mem_items_of_child hc)
  json := json_child h.json hc
  bare := binaries_item_eq_nil h.bare (mem_items_of_child hc)

theorem Textual.field {v c : Value} (h : Textual v) {name : String}
    (hc : field v name = some c) : Textual c := by
  cases v with
  | dict kvs => exact h.child ((child_dict kvs _).trans hc)
  | scalar s | bin b | list xs | tuple xs => cases hc

theorem Textual.element {xs : List Value} (h : Textual (.list xs)) {x : Value} (hx : x ∈ xs) :
    Textual x := by
  obtain ⟨n, hn⟩ := List.mem_iff_getElem?.mp hx
  exact h.child (k := .int n) (child_seq_iff.mpr (mem_enumItems_iff.mpr ⟨n, by simp, hn⟩))

theorem Textual.named {kvs : Bindings} (h : Textual (.dict kvs)) {kc : Key × Value}
    (hkc : kc ∈ kvs) : Textual kc.2 :=
  h.child (h.wf.child_iff.mpr hkc)

section Reading

variable {decode : String → Option (List UInt8)} {v c entry : Value} {name : String}
  {buffer : Binary}

theorem Textual.getD (h : Textual v) : Textual ((Envelope.field v name).getD .none) := by
  cases hfield : Envelope.field v name with
  | none => exact ⟨rfl, rfl, rfl⟩
  | some c => exact h.field hfield

end Reading

/-- The port cannot load the entry of the state: there is a record that it cannot read.  R
finds nothing under the empty id, so that nothing there troubles it. -/
def Port.Refuses (port : Port) (decode : Decode) (item : Key × Value) : Prop :=
  (port = .r → item.1 ≠ .str "") ∧ ¬ port.Reads (decode port) item.2

end Envelope

end Cositos
