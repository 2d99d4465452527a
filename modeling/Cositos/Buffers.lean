/-
Binary-buffer split and merge of the Python core (`buffers.py`).

The split is the source's loop over an explicit stack of frames.  It is stated
for any graph of Python objects: a tree is one instance, where an object is
identified by its position; a heap with sharing and cycles is another.
-/
import Cositos.Value

namespace Cositos

/-- What the modelled Python code raises.  Those up to `valueError` are
`ValueError`s. -/
inductive PyError
  /-- `state nesting exceeds {_MAX_DEPTH} levels at path {path}` -/
  | nesting (path : Path)
  /-- `cyclic reference detected in state at path {path}` -/
  | cyclic (path : Path)
  /-- `Unsupported buffer encoding: {encoding!r} (expected 'base64')` -/
  | unsupportedEncoding (encoding : Value)
  /-- `duplicate model_id {model_id!r}: document keys must be unique` -/
  | duplicateModelId (modelId : String)
  /-- `unsupported widget-state format version_major {version_major!r} (this build
  reads version {STATE_VERSION_MAJOR}.x)` -/
  | unsupportedVersion (versionMajor : Value)
  /-- `invalid widget-state document: 'state' must be a mapping, got
  {type(state).__name__}` -/
  | stateNotMapping (state : Value)
  /-- `dangling IPY_MODEL references (missing models): {detail}`, where the detail is
  `{holder} -> {', '.join(ids)}` for each holder -/
  | danglingReferences (dangling : List (Key × List String))
  | valueError (message : String)
  | keyError
  | indexError
  | typeError
  | attributeError
  | runtimeError (message : String)
  /-- Anything a host callback or a transport raises. -/
  | host (tag : Nat)
deriving Repr

/-- `isinstance(error, ValueError)`. -/
def PyError.isValueError : PyError → Bool
  | .nesting _ | .cyclic _ | .unsupportedEncoding _ | .duplicateModelId _
  | .unsupportedVersion _ | .stateNotMapping _ | .danglingReferences _ | .valueError _ => true
  | _ => false

namespace Buffers

/-- `_MAX_DEPTH`. -/
def maxDepth : Nat := 500

/-! ### Objects -/

/-- An object as `isinstance` sees it. -/
inductive Node (O : Type)
  | scalar
  | binary (b : Binary)
  | seq (xs : List O)
  | dict (kvs : List (Key × O))

/-- `isinstance(value, (list, tuple, dict))`. -/
def Node.isContainer {O : Type} : Node O → Bool
  | .seq _ | .dict _ => true
  | .scalar | .binary _ => false

/-- A graph of Python objects.  `ident path o` is `id(o)` for the object met
at `path`: an address in a heap, the path itself in a tree. -/
structure Objects (O ι : Type) where
  node : O → Node O
  ident : Path → O → ι

/-- An object the walk hands back: one of the state's own, the `None`
placeholder, or a fresh list or dict. -/
inductive Clone (O : Type)
  | same (o : O)
  | none
  | list (xs : List (Clone O))
  | dict (kvs : List (Key × Clone O))

variable {O ι : Type}

/-- `_items`. -/
def items (G : Objects O ι) (substate : O) : List (Key × O) :=
  match G.node substate with
  | .seq xs => enumItems 0 xs
  | .dict kvs => kvs
  | .scalar | .binary _ => []

/-- `_clone`: a shallow copy, a tuple becoming a list. -/
def clone (G : Objects O ι) (substate : O) : Clone O :=
  match G.node substate with
  | .seq xs => .list (xs.map .same)
  | .dict kvs => .dict (kvs.map fun kv => (kv.1, .same kv.2))
  | .scalar | .binary _ => .same substate

/-- `_extract_binary`: `None` for list indices, removal for dict keys. -/
def extractBinary : Clone O → Key → Clone O
  | .list xs, .int (.ofNat n) => .list (xs.set n .none)
  | .dict kvs, key => .dict (Dict.erase kvs key)
  | c, _ => c

/-- `clone[key] = result`. -/
def setItem : Clone O → Key → Clone O → Clone O
  | .list xs, .int (.ofNat n), result => .list (xs.set n result)
  | .dict kvs, key, result => .dict (Dict.set kvs key result)
  | c, _, _ => c

/-! ### The walk -/

/-- `_Frame`.  The iterator is the list of pairs it has still to yield. -/
structure Frame (O ι : Type) where
  state : O
  ancestors : List ι
  depth : Nat
  iterator : List (Key × O)
  clone : Option (Clone O)
  parentKey : Key
  path : Path

/-- The stripped object with its `buffer_paths` and `buffers`. -/
abbrev Split (S : Type) := S × List Path × List Binary

section Walk

variable (G : Objects O ι)

/-- `frame.clone`, made now if it is still `None`. -/
def Frame.cloned (frame : Frame O ι) : Clone O :=
  frame.clone.getD (Buffers.clone G frame.state)

/-- Hand a finished frame's result to the frame below it.  The result differs
from the frame's own object exactly when a clone was made. -/
def Frame.receive (parent frame : Frame O ι) : Frame O ι :=
  match frame.clone with
  | none => parent
  | some result =>
      { parent with clone := some (setItem (parent.cloned G) frame.parentKey result) }

/-- The frame pushed for the container `value` found under `key`. -/
def Frame.child [DecidableEq ι] (frame : Frame O ι) (key : Key) (value : O) :
    Frame O ι where
  state := value
  ancestors := frame.ancestors ++ [G.ident (frame.path ++ [key]) value]
  depth := frame.depth + 1
  iterator := items G value
  clone := none
  parentKey := key
  path := frame.path ++ [key]

/-- The `while stack` loop of `_separate`, for `fuel` turns.  Running out of
fuel stands for the source's unreachable last line. -/
def separateLoop [DecidableEq ι] (substate : O) :
    Nat → List (Frame O ι) → List Path → List Binary →
      Except PyError (Split (Clone O))
  | 0, _, bufferPaths, buffers => .ok (.same substate, bufferPaths, buffers)
  | _ + 1, [], bufferPaths, buffers => .ok (.same substate, bufferPaths, buffers)
  | fuel + 1, frame :: stack, bufferPaths, buffers =>
      match frame.iterator with
      | [] =>
          match stack with
          | [] => .ok (frame.clone.getD (.same frame.state), bufferPaths, buffers)
          | parent :: stack =>
              separateLoop substate fuel (parent.receive G frame :: stack)
                bufferPaths buffers
      | (key, value) :: iterator =>
          let frame := { frame with iterator := iterator }
          match G.node value with
          | .binary b =>
              let cloned := some (extractBinary (frame.cloned G) key)
              separateLoop substate fuel ({ frame with clone := cloned } :: stack)
                (bufferPaths ++ [frame.path ++ [key]]) (buffers ++ [b])
          | .scalar => separateLoop substate fuel (frame :: stack) bufferPaths buffers
          | .seq _ | .dict _ =>
              if frame.depth + 1 > maxDepth then
                .error (.nesting frame.path)
              else if G.ident (frame.path ++ [key]) value ∈ frame.ancestors then
                .error (.cyclic frame.path)
              else
                separateLoop substate fuel (frame.child G key value :: frame :: stack)
                  bufferPaths buffers

/-- Turns the loop needs for one pair, given those for a container. -/
def turnsItem (turns : O → Nat) (value : O) : Nat :=
  match G.node value with
  | .seq _ | .dict _ => turns value + 1
  | .scalar | .binary _ => 1

/-- Turns the loop needs for the pairs of an iterator. -/
def turnsItems (turns : O → Nat) (kvs : List (Key × O)) : Nat :=
  kvs.foldr (fun kv n => turnsItem G turns kv.2 + n) 0

/-- Turns the loop needs for a frame with `n` levels left below it. -/
def turns : Nat → O → Nat
  | 0, o => turnsItems G (fun _ => 0) (items G o) + 1
  | n + 1, o => turnsItems G (turns n) (items G o) + 1

/-- `_separate`, called at depth 0 with no ancestors. -/
def separate [DecidableEq ι] (substate : O) (path : Path) :
    Except PyError (Split (Clone O)) :=
  match G.node substate with
  | .scalar | .binary _ => .ok (.same substate, [], [])
  | .seq _ | .dict _ =>
      separateLoop G substate (turns G maxDepth substate)
        [{ state := substate
           ancestors := [G.ident path substate]
           depth := 0
           iterator := items G substate
           clone := none
           parentKey := .none
           path := path }] [] []

end Walk

/-! ### Trees -/

/-- A state tree as a graph of objects.  No object occurs twice in a tree, so
its position tells it from every other. -/
def treeObjects : Objects Value Path where
  node
    | .scalar _ => .scalar
    | .bin b => .binary b
    | .list xs | .tuple xs => .seq xs
    | .dict kvs => .dict kvs
  ident path _ := path

mutual

/-- The value of what the walk hands back. -/
def Clone.toValue : Clone Value → Value
  | .same v => v
  | .none => Value.none
  | .list xs => .list (Clone.toValueSeq xs)
  | .dict kvs => .dict (Clone.toValueEntries kvs)

def Clone.toValueSeq : List (Clone Value) → List Value
  | [] => []
  | x :: xs => Clone.toValue x :: Clone.toValueSeq xs

def Clone.toValueEntries : List (Key × Clone Value) → Bindings
  | [] => []
  | (k, x) :: kvs => (k, Clone.toValue x) :: Clone.toValueEntries kvs

end

/-- `remove_buffers`. -/
def removeBuffers (state : Value) : Except PyError (Split Value) := do
  let (stripped, bufferPaths, buffers) ← separate treeObjects state []
  return (stripped.toValue, bufferPaths, buffers)

end Buffers

/-! ### Subscripts -/

/-- The key a float is equal to. -/
def Key.ofRat (q : ℚ) : Key :=
  if h : q.den = 1 then .int q.num else .frac ⟨q, h⟩

/-- The key a scalar is equal to. -/
def Scalar.key : Scalar → Key
  | .none => .none
  | .bool b => .int b.toNat
  | .int i => .int i
  | .float q => Key.ofRat q
  | .str s => .str s
  | .other tag => .other tag

/-- A path segment as a value. -/
def Key.toValue : Key → Value
  | .none => Value.none
  | .int i => .int i
  | .frac q => .scalar (.float q)
  | .str s => .str s
  | .other tag => .scalar (.other tag)

/-- A recorded path as a value. -/
def Path.toValue (path : Path) : Value :=
  .list (path.map Key.toValue)

namespace Value

/-- `hash(key)`.  Subscripts come off the wire as JSON; of JSON values only
lists and dicts cannot be hashed. -/
def hashKey : Value → Except PyError Key
  | .scalar s => .ok s.key
  | _ => .error .typeError

/-- The position an index names in a sequence: from the end when negative. -/
def indexOf (length : Nat) (i : Int) : Except PyError Nat :=
  if 0 ≤ i ∧ i < length then .ok i.toNat
  else if i < 0 ∧ -length ≤ i then .ok (i + length).toNat
  else .error .indexError

/-- The position `xs[key]` reads when `len(xs) = length`. -/
def seqIndex (length : Nat) : Value → Except PyError Nat
  | .int i => indexOf length i
  | .bool b => indexOf length b.toNat
  | _ => .error .typeError

/-- The item of a sequence under an index value. -/
def seqItem (xs : List Value) (key : Value) : Except PyError Value := do
  let n ← seqIndex xs.length key
  match xs[n]? with
  | some x => return x
  | none => .error .indexError

/-- A string as the sequence of its one-character strings. -/
def chars (s : String) : List Value :=
  s.toList.map fun c => .str (String.singleton c)

/-- A binary value as the sequence of its bytes. -/
def byteInts (b : Binary) : List Value :=
  b.raw.map fun byte => .int byte.toNat

/-- `obj[key]`. -/
def getItem : Value → Value → Except PyError Value
  | .dict kvs, key => do
      let k ← hashKey key
      match kvs.lookup k with
      | some value => return value
      | none => .error .keyError
  | .list xs, key | .tuple xs, key => seqItem xs key
  | .str s, key => seqItem (chars s) key
  | .bin b, key => seqItem (byteInts b) key
  | .scalar _, _ => .error .typeError

/-- `obj[key] = value`.  Tuples and strings take no assignment, and no buffer
is an integer a `bytearray` would take. -/
def setItem : Value → Value → Value → Except PyError Value
  | .dict kvs, key, value => do
      let k ← hashKey key
      return .dict (Dict.set kvs k value)
  | .list xs, key, value => do
      let n ← seqIndex xs.length key
      return .list (xs.set n value)
  | _, _, _ => .error .typeError

/-- `obj` once its child under `key` has been mutated in place into `value`. -/
def withItem : Value → Value → Value → Except PyError Value
  | .tuple xs, key, value => do
      let n ← seqIndex xs.length key
      return .tuple (xs.set n value)
  | obj, key, value => setItem obj key value

/-- The segments `path[:-1]` and `path[-1]` range over. -/
def segments : Value → Except PyError (List Value)
  | .list xs | .tuple xs => .ok xs
  | .str s => .ok (chars s)
  | .bin b => .ok (byteInts b)
  | .dict _ | .scalar _ => .error .typeError

end Value

namespace Buffers

/-- One pass of the loop body of `put_buffers`, for a path already split into
segments. -/
def putAt (buffer : Binary) : Value → List Value → Except PyError Value
  | _, [] => .error .indexError
  | obj, [key] => obj.setItem key (.bin buffer)
  | obj, key :: path => do
      let child ← obj.getItem key
      let child ← putAt buffer child path
      obj.withItem key child

/-- `put_buffers`, returning the mutated state.  `zip(strict=True)` raises only
once the shorter list has run out. -/
def putBuffers (state : Value) : List Value → List Binary → Except PyError Value
  | [], [] => .ok state
  | path :: bufferPaths, buffer :: buffers => do
      let segments ← path.segments
      let state ← putAt buffer state segments
      putBuffers state bufferPaths buffers
  | _, _ => .error (.valueError "zip() arguments have different lengths")

end Buffers

end Cositos
