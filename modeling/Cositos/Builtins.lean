/-
The built-in objects of JavaScript that a value of a state inherits from: what their
properties are and which of them cannot be assigned.

They are as a program finds them.  What a program adds to them does not show in a state
and is left out, as are the values of their numbers and texts.
-/
import Cositos.Value

namespace Cositos

namespace Front

/-- What the modelled JavaScript code throws. -/
inductive JsError
  | typeError
  | rangeError
  | syntaxError
  /-- `InvalidCharacterError`, which `atob` throws. -/
  | invalidCharacter
deriving DecidableEq, Repr

/-- JavaScript's `undefined`. -/
@[match_pattern] abbrev undefined : Value := .scalar (.other 0)

/-- The classes of values and functions; a buffer is an `ArrayBuffer`. -/
inductive Class
  | object
  | function
  | array
  | string
  | number
  | boolean
  | arrayBuffer
deriving DecidableEq, Repr

/-- A built-in object; a `method` is a function that is no constructor. -/
inductive Builtin
  | method
  | constructorOf (cls : Class)
  | prototypeOf (cls : Class)
deriving DecidableEq, Repr

namespace Class

/-- The classes. -/
def all : List Class := [object, function, array, string, number, boolean, arrayBuffer]

/-- The methods of the prototype. -/
def methods : Class → List String
  | object =>
      ["__defineGetter__", "__defineSetter__", "__lookupGetter__", "__lookupSetter__",
        "hasOwnProperty", "isPrototypeOf", "propertyIsEnumerable", "toLocaleString", "toString",
        "valueOf"]
  | function => ["apply", "bind", "call", "toString"]
  | array =>
      ["at", "concat", "copyWithin", "entries", "every", "fill", "filter", "find", "findIndex",
        "findLast", "findLastIndex", "flat", "flatMap", "forEach", "includes", "indexOf", "join",
        "keys", "lastIndexOf", "map", "pop", "push", "reduce", "reduceRight", "reverse", "shift",
        "slice", "some", "sort", "splice", "toLocaleString", "toReversed", "toSorted",
        "toSpliced", "toString", "unshift", "values", "with"]
  | string =>
      ["anchor", "at", "big", "blink", "bold", "charAt", "charCodeAt", "codePointAt", "concat",
        "endsWith", "fixed", "fontcolor", "fontsize", "includes", "indexOf", "isWellFormed",
        "italics", "lastIndexOf", "link", "localeCompare", "match", "matchAll", "normalize",
        "padEnd", "padStart", "repeat", "replace", "replaceAll", "search", "slice", "small",
        "split", "startsWith", "strike", "sub", "substr", "substring", "sup",
        "toLocaleLowerCase", "toLocaleUpperCase", "toLowerCase", "toString", "toUpperCase",
        "toWellFormed", "trim", "trimEnd", "trimLeft", "trimRight", "trimStart", "valueOf"]
  | number =>
      ["toExponential", "toFixed", "toLocaleString", "toPrecision", "toString", "valueOf"]
  | boolean => ["toString", "valueOf"]
  | arrayBuffer => ["resize", "slice", "transfer", "transferToFixedLength"]

/-- The methods of the constructor. -/
def statics : Class → List String
  | object =>
      ["assign", "create", "defineProperties", "defineProperty", "entries", "freeze",
        "fromEntries", "getOwnPropertyDescriptor", "getOwnPropertyDescriptors",
        "getOwnPropertyNames", "getOwnPropertySymbols", "getPrototypeOf", "groupBy", "hasOwn",
        "is", "isExtensible", "isFrozen", "isSealed", "keys", "preventExtensions", "seal",
        "setPrototypeOf", "values"]
  | array => ["from", "fromAsync", "isArray", "of"]
  | string => ["fromCharCode", "fromCodePoint", "raw"]
  | number => ["isFinite", "isInteger", "isNaN", "isSafeInteger", "parseFloat", "parseInt"]
  | arrayBuffer => ["isView"]
  | function | boolean => []

/-- The constants of the constructor, which are numbers. -/
def constants : Class → List String
  | number =>
      ["EPSILON", "MAX_SAFE_INTEGER", "MAX_VALUE", "MIN_SAFE_INTEGER", "MIN_VALUE", "NaN",
        "NEGATIVE_INFINITY", "POSITIVE_INFINITY"]
  | _ => []

/-- The accessors of the prototype, `__proto__` apart.  Nothing sets them, and on the prototype
itself or on a function they throw. -/
def accessors : Class → List String
  | arrayBuffer => ["byteLength", "detached", "maxByteLength", "resizable"]
  | function => ["arguments", "caller"]
  | _ => []

end Class

namespace Builtin

/-- The built-in objects. -/
def all : List Builtin :=
  method :: Class.all.map constructorOf ++ Class.all.map prototypeOf

/-- A built-in object as a value: a scalar, for it is no part of a state. -/
def toValue (b : Builtin) : Value := .scalar (.other (3 + all.idxOf b))

end Builtin

/-- The built-in object that a value is. -/
def builtin? : Scalar → Option Builtin
  | .other (tag + 3) => Builtin.all[tag]?
  | _ => none

/-- What an object has from the prototype of its class, accessors apart. -/
def Class.inherited (cls : Class) (name : String) : Value :=
  if name = "constructor" then (Builtin.constructorOf cls).toValue
  else if name = "__proto__" then (Builtin.prototypeOf cls).toValue
  else if name ∈ cls.methods ∨ name ∈ object.methods then Builtin.method.toValue
  else undefined

theorem Class.exists_scalar_of_inherited (cls : Class) (name : String) :
    ∃ s, cls.inherited name = .scalar s := by
  unfold inherited
  split_ifs
  all_goals exact ⟨_, rfl⟩

namespace Builtin

/-- The properties that are numbers or texts. -/
def plain : Builtin → List String
  | method | prototypeOf .function => ["length", "name"]
  | constructorOf cls => "length" :: "name" :: cls.constants
  | prototypeOf .array | prototypeOf .string => ["length"]
  | prototypeOf _ => []

/-- The properties that throw when they are read. -/
def barred : Builtin → List String
  | method | constructorOf _ => Class.function.accessors
  | prototypeOf cls => cls.accessors

/-- What else a built-in object has. -/
def found : Builtin → String → Value
  | method, name => Class.function.inherited name
  | constructorOf cls, name =>
      if name = "prototype" then (prototypeOf cls).toValue
      else if name ∈ cls.statics then method.toValue
      else Class.function.inherited name
  | prototypeOf cls, name =>
      if name = "__proto__" then
        if cls = .object then .none else (prototypeOf .object).toValue
      else cls.inherited name

/-- A property of a built-in object. -/
def get (b : Builtin) (name : String) : Except JsError Value :=
  if name ∈ b.barred then .error .typeError
  else if name = "name" ∧ name ∈ b.plain then .ok (.str "")
  else if name ∈ b.plain then .ok (.int 0)
  else .ok (b.found name)

/-- The properties that cannot be assigned a buffer. -/
def locked (b : Builtin) : List String :=
  b.barred ++ b.plain ++
    match b with
    | constructorOf _ => ["prototype"]
    | prototypeOf .object => ["__proto__"]
    | _ => []

/-- An assignment to a property of a built-in object; `__proto__` ignores what is no object. -/
def set (b : Builtin) (name : String) : Value → Except JsError Value
  | undefined =>
      if name ∈ b.locked ∧ name ≠ "__proto__" then .error .typeError else .ok b.toValue
  | _ => if name ∈ b.locked then .error .typeError else .ok b.toValue

theorem exists_scalar_of_found (b : Builtin) (name : String) : ∃ s, b.found name = .scalar s := by
  unfold found
  split
  · exact Class.function.exists_scalar_of_inherited name
  · split_ifs
    · exact ⟨_, rfl⟩
    · exact ⟨_, rfl⟩
    · exact Class.function.exists_scalar_of_inherited name
  · split_ifs
    · exact ⟨_, rfl⟩
    · exact ⟨_, rfl⟩
    · exact Class.exists_scalar_of_inherited _ name

/-- No property of a built-in object is a part of a state. -/
theorem exists_scalar_of_get {b : Builtin} {name : String} {c : Value}
    (h : b.get name = .ok c) : ∃ s, c = .scalar s := by
  unfold get at h
  split_ifs at h
  all_goals cases h
  · exact ⟨_, rfl⟩
  · exact ⟨_, rfl⟩
  · exact exists_scalar_of_found b name

theorem get_error_iff {b : Builtin} {name : String} :
    (∃ e, b.get name = .error e) ↔ name ∈ b.barred := by
  unfold get
  split_ifs with hbarred <;> simp [hbarred]

theorem eq_of_set {b : Builtin} {name : String} {value w : Value}
    (h : b.set name value = .ok w) : w = b.toValue := by
  unfold set at h
  split at h
  all_goals
    split_ifs at h
    cases h
    rfl

theorem set_error_iff {b : Builtin} {name : String} (buffer : Binary) :
    (∃ e, b.set name (.bin buffer) = .error e) ↔ name ∈ b.locked := by
  show (∃ e, (if name ∈ b.locked then _ else _) = Except.error e) ↔ _
  split_ifs with hlocked <;> simp [hlocked]

end Builtin

end Front

end Cositos
