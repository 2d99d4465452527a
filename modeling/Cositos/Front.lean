/-
The JavaScript front end: the buffer split and merge of `buffers.js` and the
`Model` of `model.js`.

A JavaScript object lists its own properties in the order in which
`Object.entries` and a spread yield them: array indices first, in ascending
order, then the other names as they were added.
-/
import Cositos.Builtins
import Cositos.Doubles
import Cositos.Protocol

namespace Cositos

namespace Front

/-- `Infinity` and `-Infinity`. -/
def infinity (negative : Bool) : Scalar := .other (if negative then 2 else 1)

/-- The number that `JSON.parse` reads where an integer is printed. -/
def number (i : Int) : Scalar :=
  match toNumber i with
  | some i => .int i
  | none => infinity (i < 0)

/-! ### Objects -/

/-- The name of the accessor every object inherits. -/
abbrev protoKey : Key := .str "__proto__"

/-- The greatest length of an array: `2 ** 32 - 1`. -/
def maxArrayLength : Nat := 4294967295

/-- The array index a property key is, if it is one. -/
def ownIndex? : Key → Option Nat
  | .str name =>
      match name.toNat? with
      | some n => if toString n = name ∧ n < maxArrayLength then some n else none
      | none => none
  | _ => none

/-- A new property `key` is listed before the property `other`. -/
def precedes (key other : Key) : Bool :=
  match ownIndex? key, ownIndex? other with
  | some m, some n => m < n
  | some _, none => true
  | none, _ => false

/-- A property that the object does not have yet. -/
def insertOwn : Bindings → Key → Value → Bindings
  | [], key, value => [(key, value)]
  | (key', value') :: own, key, value =>
      if precedes key key' then (key, value) :: (key', value') :: own
      else (key', value') :: insertOwn own key value

/-- The object with an own property. -/
def setOwn (own : Bindings) (key : Key) (value : Value) : Bindings :=
  if key ∈ Dict.keys own then Dict.set own key value else insertOwn own key value

/-- An object made of these properties, added in turn. -/
def ofEntries (entries : Bindings) : Bindings :=
  entries.foldl (fun own kv => setOwn own kv.1 kv.2) []

/-- `obj[key] = value` on an object.  Without an own property of that name,
`__proto__` sets the prototype. -/
def assign (own : Bindings) (key : Key) (value : Value) : Bindings :=
  if key = protoKey ∧ key ∉ Dict.keys own then own else setOwn own key value

mutual

/-- What `JSON.parse` makes of the text of a value: the value as it comes off the wire. -/
def parsed : Value → Value
  | .int i => .scalar (number i)
  | .scalar s => .scalar s
  | .bin b => .bin b
  | .list xs | .tuple xs => .list (parsedSeq xs)
  | .dict kvs => .dict (ofEntries (parsedEntries kvs))

def parsedSeq : List Value → List Value
  | [] => []
  | x :: xs => parsed x :: parsedSeq xs

def parsedEntries : Bindings → Bindings
  | [] => []
  | (k, x) :: kvs => (k, parsed x) :: parsedEntries kvs

end

mutual

/-- The value with other scalars in place of its integers. -/
def withInts (f : Int → Scalar) : Value → Value
  | .int i => .scalar (f i)
  | .scalar s => .scalar s
  | .bin b => .bin b
  | .list xs => .list (withIntsSeq f xs)
  | .tuple xs => .tuple (withIntsSeq f xs)
  | .dict kvs => .dict (withIntsEntries f kvs)

def withIntsSeq (f : Int → Scalar) : List Value → List Value
  | [] => []
  | x :: xs => withInts f x :: withIntsSeq f xs

def withIntsEntries (f : Int → Scalar) : Bindings → Bindings
  | [] => []
  | (k, x) :: kvs => (k, withInts f x) :: withIntsEntries f kvs

end

/-- What `json.loads` makes of the text that `JSON.stringify` prints of a JSON value.  A float
that is an integer stands for the equal one that is read. -/
def stringified (value : Value) : Value := withInts (fun i => .int (spelled i)) value

mutual

/-- `String(value)`.  A number that is no integer is spelled as a ratio here,
where JavaScript has its decimal spelling. -/
def text : Value → String
  | .str s => s
  | .int i => toString i
  | .bool b => toString b
  | .none => "null"
  | .scalar (.float q) => if q.den = 1 then toString q.num else toString q
  | undefined => "undefined"
  | .scalar (.other 1) => "Infinity"
  | .scalar (.other 2) => "-Infinity"
  | .scalar (.other _) | .dict _ => "[object Object]"
  | .bin _ => "[object ArrayBuffer]"
  | .list xs | .tuple xs => ",".intercalate (textSeq xs)

def textSeq : List Value → List String
  | [] => []
  | .none :: xs | undefined :: xs => "" :: textSeq xs
  | x :: xs => text x :: textSeq xs

end

/-- The element of an array that a subscript names. -/
def elementIndex? : Value → Option Nat
  | .int i => if 0 ≤ i then some i.toNat else none
  | key => ownIndex? (.str (text key))

/-! ### Properties -/

/-- The class a value belongs to. -/
def classOf : Value → Class
  | .list _ | .tuple _ => .array
  | .str _ => .string
  | .int _ | .scalar (.float _) | .scalar (.other 1) | .scalar (.other 2) => .number
  | .bool _ => .boolean
  | .bin _ => .arrayBuffer
  | _ => .object

/-- What a value without a property of its own under a key has there. -/
def inherited (obj key : Value) : Value := (classOf obj).inherited (text key)

/-- `obj[key]`. -/
def getProp : Value → Value → Except JsError Value
  | .dict own, key => .ok ((own.lookup (.str (text key))).getD (inherited (.dict own) key))
  | .list xs, key | .tuple xs, key =>
      match elementIndex? key with
      | some n => .ok (xs[n]?.getD undefined)
      | none => .ok (if text key = "length" then .int xs.length else inherited (.list xs) key)
  | .str s, key =>
      match elementIndex? key with
      | some n => .ok ((Value.chars s)[n]?.getD undefined)
      | none =>
          .ok (if text key = "length" then .int (Value.chars s).length else inherited (.str s) key)
  | .bin b, key =>
      .ok (if text key = "byteLength" ∨ text key = "maxByteLength" then .int b.raw.length
        else if text key = "detached" ∨ text key = "resizable" then .bool false
        else inherited (.bin b) key)
  | .none, _ | undefined, _ => .error .typeError
  | .scalar s, key =>
      match builtin? s with
      | some b => b.get (text key)
      | none => .ok (inherited (.scalar s) key)

/-- The elements of an array after a write at the index `n`. -/
def setElement (xs : List Value) (n : Nat) (value : Value) : List Value :=
  if n < xs.length then xs.set n value
  else if n < maxArrayLength then xs ++ List.replicate (n - xs.length) undefined ++ [value]
  else xs

/-- `obj[key] = value` in strict mode; no value assigned here is a length.  Properties of
arrays and buffers other than elements do not show in a state. -/
def setProp : Value → Value → Value → Except JsError Value
  | .dict own, key, value => .ok (.dict (assign own (.str (text key)) value))
  | .list xs, key, value | .tuple xs, key, value =>
      match elementIndex? key with
      | some n => .ok (.list (setElement xs n value))
      | none => if text key = "length" then .error .rangeError else .ok (.list xs)
  | .bin b, key, _ =>
      if text key ∈ Class.arrayBuffer.accessors then .error .typeError else .ok (.bin b)
  | .none, _, _ | undefined, _, _ => .error .typeError
  | .scalar s, key, value =>
      match builtin? s with
      | some b => b.set (text key) value
      -- the accessor of `__proto__` does nothing to a primitive value
      | none => if text key = "__proto__" then .ok (.scalar s) else .error .typeError

/-- An object when what its property `key` gave has been `changed` in place.  Of what can be
found there, only objects and arrays are a part of the state. -/
def putBack (obj key found changed : Value) : Except JsError Value :=
  if found.isContainer then setProp obj key changed else .ok obj

/-- `{ ...value }`. -/
def spread : Value → Bindings
  | .dict own => own
  | .list xs | .tuple xs =>
      ofEntries ((enumItems 0 xs).map fun kv => (.str (text kv.1.toValue), kv.2))
  | .str s =>
      ofEntries ((enumItems 0 (Value.chars s)).map fun kv => (.str (text kv.1.toValue), kv.2))
  | .scalar _ | .bin _ => []

/-- `value ?? default`. -/
def orElse (value default : Value) : Value :=
  match value with
  | .none | undefined => default
  | value => value

/-! ### `buffers.js` -/

/-- `clone`. -/
def clone : Value → Value
  | .list xs | .tuple xs => .list xs
  | .dict own => .dict own
  | value => value

/-- `entriesOf`. -/
def entriesOf (sub : Value) : Bindings := sub.items

/-- `extractBinary`, its pushes apart. -/
def extractBinary : Value → Key → Value
  | .list xs, .int (.ofNat n) => .list (xs.set n .none)
  | .dict own, key => .dict (Dict.erase own key)
  | out, _ => out

/-- `out[key] = nested`. -/
def setNested : Value → Key → Value → Value
  | .list xs, .int (.ofNat n), nested => .list (xs.set n nested)
  | .dict own, key, nested => .dict (assign own key nested)
  | out, _, _ => out

/-- What `separate` does on a value: the clone it returns in place of the value
itself, if it made one, and the pairs it pushes. -/
abbrev Separated := Option Value × List (Path × Binary)

/-- The loop of `separate`, where `recurse` separates the value below a path. -/
def separateEntries (recurse : Path → Value → Separated) (sub : Value) (path : Path) :
    Bindings → Option Value → Separated
  | [], out => (out, [])
  | (key, value) :: entries, out =>
      match value with
      | .bin b =>
          let out := extractBinary (out.getD (clone sub)) key
          let (out, pushed) := separateEntries recurse sub path entries (some out)
          (out, (path ++ [key], b) :: pushed)
      | .scalar _ => separateEntries recurse sub path entries out
      | value =>
          let (nested, inner) := recurse (path ++ [key]) value
          let out :=
            match nested with
            | none => out
            | some nested => some (setNested (out.getD (clone sub)) key nested)
          let (out, pushed) := separateEntries recurse sub path entries out
          (out, inner ++ pushed)

/-- `separate`, which recurses no more often than the value is high. -/
def separate : Nat → Path → Value → Separated
  | 0, _, _ => (none, [])
  | height + 1, path, sub =>
      match sub with
      | .scalar _ | .bin _ => (none, [])
      | sub => separateEntries (separate height) sub path (entriesOf sub) none

/-- `remove_buffers`. -/
def removeBuffers (state : Value) : Buffers.Split Value :=
  let (out, pushed) := separate state.height [] state
  (out.getD state, pushed.map Prod.fst, pushed.map Prod.snd)

/-- The segments of a path that `path.slice(0, -1)` and the last subscript
range over. -/
def segments : Value → Except JsError (List Value)
  | .list path | .tuple path => .ok path
  | .str path => .ok (Value.chars path)
  | _ => .error .typeError

/-- The body of the loop in `put_buffers`. -/
def putAt (buffer : Value) : Value → List Value → Except JsError Value
  | obj, [] => setProp obj undefined buffer
  | obj, [key] => setProp obj key buffer
  | obj, key :: path => do
      let child ← getProp obj key
      let changed ← putAt buffer child path
      putBack obj key child changed

/-- The loop in `put_buffers`, from the `i`-th path on. -/
def putEach (buffers : List Binary) (i : Nat) (state : Value) :
    List Value → Except JsError Value
  | [] => .ok state
  | path :: bufferPaths => do
      let path ← segments path
      let state ← putAt ((buffers[i]?.map Value.bin).getD undefined) state path
      putEach buffers (i + 1) state bufferPaths

/-- `put_buffers`, returning the mutated state. -/
def putBuffers (state bufferPaths : Value) (buffers : List Binary) : Except JsError Value :=
  match bufferPaths with
  | .list bufferPaths | .tuple bufferPaths => putEach buffers 0 state bufferPaths
  | _ => .error .typeError

/-! ### `model.js` -/

/-- What a `Model` emits. -/
inductive Emitted
  | change (key : Key) (value : Value)
  | custom (content : Value) (buffers : List Binary)

/-- `Model`: its `#state` and its `#dirty` set in insertion order. -/
structure Model where
  state : Bindings
  dirty : List Key := []

/-- A `comm_msg` and its buffers, as a channel sends them. -/
abbrev Outbound := Bindings × List Binary

namespace Model

/-- `constructor`. -/
def new (initialState : Bindings) : Model := { state := initialState }

/-- `get`. -/
def get (model : Model) (key : Key) : Value := (model.state.lookup key).getD undefined

/-- `set`. -/
def set (model : Model) (key : String) (value : Value) : Model × List Emitted :=
  ({ state := assign model.state (.str key) value
     dirty := if .str key ∈ model.dirty then model.dirty else model.dirty ++ [.str key] },
    [.change (.str key) value])

/-- The object that `save_changes` collects. -/
def dirtyState (model : Model) : Bindings :=
  model.dirty.foldl (fun own key => assign own key (model.get key)) []

/-- `save_changes`. -/
def saveChanges (model : Model) : Model × Option Outbound :=
  if model.dirty = [] then (model, none)
  else
    let (state, bufferPaths, buffers) := removeBuffers (.dict model.dirtyState)
    ({ model with dirty := [] },
      some ([(.str "method", .str "update"), (.str "state", state),
        (.str "buffer_paths", Protocol.bufferPathsField bufferPaths)], buffers))

/-- `send`. -/
def send (content : Value) (buffers : List Binary) : Outbound :=
  ([(.str "method", .str "custom"), (.str "content", content)], buffers)

/-- `request_state`. -/
def requestState : Outbound := ([(.str "method", .str "request_state")], [])

/-- The incoming state of an `update`, its buffers put in. -/
def incoming (msg : Value) (buffers : List Binary) : Except JsError Bindings := do
  let state ← getProp msg (.str "state")
  let bufferPaths ← getProp msg (.str "buffer_paths")
  let merged ← putBuffers (.dict (spread (orElse state (.dict []))))
    (orElse bufferPaths (.list [])) buffers
  return merged.bindings

/-- `#receive`. -/
def receive (model : Model) (msg : Value) (buffers : List Binary) :
    Except JsError (Model × List Emitted) := do
  match ← getProp msg (.str "method") with
  | .str "update" =>
      let entries ← incoming msg buffers
      let state := entries.foldl (fun own kv => assign own kv.1 kv.2) model.state
      return ({ model with state }, entries.map fun kv => .change kv.1 kv.2)
  | .str "custom" =>
      let content ← getProp msg (.str "content")
      return (model, [.custom content buffers])
  | _ => return (model, [])

end Model

end Front

end Cositos
