/-
JSON values and their text: the printer, laid out on one line or on many, the parser, and
the round trip between them.  The floats are those of any type that prints and reads them.
-/
import Cositos.JsonLiterals

namespace Cositos

open JsonText

/-- A JSON value; the floats are a type of their own, and so are the strings where they are
not text. -/
inductive Json (φ : Type) (σ : Type := String)
  | null
  | bool (b : Bool)
  | int (i : Int)
  | float (q : φ)
  | str (s : σ)
  | arr (xs : List (Json φ σ))
  | obj (members : List (σ × Json φ σ))

/-- Strings with a literal. -/
class Quoted (σ : Type) where
  quote : σ → List Char

instance : Quoted String := ⟨quote⟩

instance : Quoted (List CodePoint) := ⟨quotePoints⟩

@[simp]
theorem quoted_string (s : String) : Quoted.quote s = quote s := rfl

@[simp]
theorem quoted_points (s : String) : Quoted.quote (points s) = quote s := quotePoints_points s

/-- How floats are printed, and what their literals denote. -/
structure FloatText (φ : Type) where
  repr : φ → List Char
  ofText : List Char → φ

/-- The float is printed as the literal of a float that denotes it. -/
def FloatText.Lawful {φ : Type} (format : FloatText φ) (q : φ) : Prop :=
  FloatLiteral (format.repr q) ∧ format.ofText (format.repr q) = q

namespace Json

variable {φ : Type}

/-! ### Printing -/

/-- A line break and the indentation of its line; no `indent` is one line. -/
def newline (indent : Option Nat) (level : Nat) : List Char :=
  match indent with
  | none => []
  | some n => '\n' :: List.replicate (n * level) ' '

/-- What stands between two items. -/
def separator (indent : Option Nat) (level : Nat) : List Char :=
  match indent with
  | none => [',', ' ']
  | some _ => ',' :: newline indent level

section Print

variable {σ : Type} [Quoted σ] (format : FloatText φ) (indent : Option Nat)

mutual

/-- The text of a value that starts at this depth. -/
def dump (level : Nat) : Json φ σ → List Char
  | .null => ['n', 'u', 'l', 'l']
  | .bool true => ['t', 'r', 'u', 'e']
  | .bool false => ['f', 'a', 'l', 's', 'e']
  | .int i => intText i
  | .float q => format.repr q
  | .str s => Quoted.quote s
  | .arr [] => ['[', ']']
  | .arr (x :: xs) =>
      '[' :: newline indent (level + 1) ++ dump (level + 1) x ++ dumpItems (level + 1) xs ++
        newline indent level ++ [']']
  | .obj [] => ['{', '}']
  | .obj ((k, x) :: members) =>
      '{' :: newline indent (level + 1) ++ Quoted.quote k ++ [':', ' '] ++ dump (level + 1) x ++
        dumpMembers (level + 1) members ++ newline indent level ++ ['}']

/-- The items after the first. -/
def dumpItems (level : Nat) : List (Json φ σ) → List Char
  | [] => []
  | x :: xs => separator indent level ++ dump level x ++ dumpItems level xs

/-- The members after the first. -/
def dumpMembers (level : Nat) : List (σ × Json φ σ) → List Char
  | [] => []
  | (k, x) :: members =>
      separator indent level ++ Quoted.quote k ++ [':', ' '] ++ dump level x ++
        dumpMembers level members

end

end Print

/-! ### Parsing -/

def isSpace (c : Char) : Bool := c = ' ' || c = '\t' || c = '\n' || c = '\r'

def skip (text : List Char) : List Char := text.dropWhile isSpace

def ofNumber (format : FloatText φ) : Number → Json φ
  | .int i => .int i
  | .float literal => .float (format.ofText literal)

/-- The rest of a word. -/
def scanWord (word : List Char) (v : Json φ) (text : List Char) :
    Option (Json φ × List Char) :=
  if word <+: text then some (v, text.drop word.length) else none

section Parse

variable (format : FloatText φ)

mutual

/-- A value, and what follows it. -/
def parseValue : Nat → List Char → Option (Json φ × List Char)
  | 0, _ | _, [] => none
  | fuel + 1, c :: rest =>
      if c = '"' then do
        let (s, rest) ← scanString (rest.length + 1) rest
        return (.str (String.ofList s), rest)
      else if c = '[' then do
        let (xs, rest) ← parseArray fuel (skip rest)
        return (.arr xs, rest)
      else if c = '{' then do
        let (members, rest) ← parseObject fuel (skip rest)
        return (.obj members, rest)
      else if c = 'n' then scanWord ['u', 'l', 'l'] .null rest
      else if c = 't' then scanWord ['r', 'u', 'e'] (.bool true) rest
      else if c = 'f' then scanWord ['a', 'l', 's', 'e'] (.bool false) rest
      else do
        let (n, rest) ← scanNumber (c :: rest)
        return (ofNumber format n, rest)

/-- What follows the opening bracket of an array. -/
def parseArray : Nat → List Char → Option (List (Json φ) × List Char)
  | 0, _ | _, [] => none
  | fuel + 1, c :: rest =>
      if c = ']' then some ([], rest)
      else do
        let (x, rest) ← parseValue fuel (c :: rest)
        let (xs, rest) ← parseItems fuel (skip rest)
        return (x :: xs, rest)

/-- What follows an item of an array. -/
def parseItems : Nat → List Char → Option (List (Json φ) × List Char)
  | 0, _ | _, [] => none
  | fuel + 1, c :: rest =>
      if c = ']' then some ([], rest)
      else if c = ',' then do
        let (x, rest) ← parseValue fuel (skip rest)
        let (xs, rest) ← parseItems fuel (skip rest)
        return (x :: xs, rest)
      else none

/-- What follows the opening brace of an object. -/
def parseObject : Nat → List Char → Option (List (String × Json φ) × List Char)
  | 0, _ | _, [] => none
  | fuel + 1, c :: rest =>
      if c = '}' then some ([], rest)
      else do
        let (member, rest) ← parseMember fuel (c :: rest)
        let (members, rest) ← parseMembers fuel (skip rest)
        return (member :: members, rest)

/-- What follows a member of an object. -/
def parseMembers : Nat → List Char → Option (List (String × Json φ) × List Char)
  | 0, _ | _, [] => none
  | fuel + 1, c :: rest =>
      if c = '}' then some ([], rest)
      else if c = ',' then do
        let (member, rest) ← parseMember fuel (skip rest)
        let (members, rest) ← parseMembers fuel (skip rest)
        return (member :: members, rest)
      else none

/-- A key and its value. -/
def parseMember : Nat → List Char → Option ((String × Json φ) × List Char)
  | 0, _ | _, [] => none
  | fuel + 1, c :: rest =>
      if c = '"' then do
        let (k, rest) ← scanString (rest.length + 1) rest
        match skip rest with
        | ':' :: rest => do
            let (x, rest) ← parseValue fuel (skip rest)
            return ((String.ofList k, x), rest)
        | _ => none
      else none

end

/-- The value of a text that holds one value and nothing else.  Every other turn, at least,
reads a character. -/
def parse (text : List Char) : Option (Json φ) := do
  let (v, rest) ← parseValue format (2 * text.length + 1) (skip text)
  if skip rest = [] then return v else none

end Parse

/-! ### Values -/

theorem tree_induction {σ : Type} {P : Json φ σ → Prop} (null : P .null)
    (bool : ∀ b, P (.bool b)) (int : ∀ i, P (.int i)) (float : ∀ q, P (.float q))
    (str : ∀ s, P (.str s)) (arr : ∀ xs, (∀ x ∈ xs, P x) → P (.arr xs))
    (obj : ∀ members : List (σ × Json φ σ), (∀ m ∈ members, P m.2) → P (.obj members)) :
    ∀ v, P v :=
  @Json.rec φ σ P (fun xs => ∀ x ∈ xs, P x) (fun members => ∀ m ∈ members, P m.2)
    (fun member => P member.2) null bool int float str arr obj
    (fun _ hx => absurd hx List.not_mem_nil)
    (fun _ _ hhead htail => List.forall_mem_cons.mpr ⟨hhead, htail⟩)
    (fun _ hx => absurd hx List.not_mem_nil)
    (fun _ _ hhead htail => List.forall_mem_cons.mpr ⟨hhead, htail⟩)
    (fun _ _ h => h)

mutual

/-- The floats of a value. -/
def floats : Json φ → List φ
  | .float q => [q]
  | .arr xs => floatsItems xs
  | .obj members => floatsMembers members
  | _ => []

def floatsItems : List (Json φ) → List φ
  | [] => []
  | x :: xs => floats x ++ floatsItems xs

def floatsMembers : List (String × Json φ) → List φ
  | [] => []
  | (_, x) :: members => floats x ++ floatsMembers members

end

theorem floatsItems_eq (xs : List (Json φ)) : floatsItems xs = xs.flatMap floats := by
  induction xs with
  | nil => rfl
  | cons x xs ih => rw [floatsItems, ih, List.flatMap_cons]

theorem floatsMembers_eq (members : List (String × Json φ)) :
    floatsMembers members = members.flatMap fun m => floats m.2 := by
  induction members with
  | nil => rfl
  | cons m members ih => rw [floatsMembers, ih, List.flatMap_cons]

/-! ### The texts of a value -/

/-- White space between two tokens. -/
def Gap (gap : List Char) : Prop := ∀ c ∈ gap, isSpace c = true

theorem gap_nil : Gap [] := List.forall_mem_nil _

/-- What follows an item of a sequence, to the bracket that closes it. -/
inductive Follows {α : Type} (item : α → List Char → Prop) (close : Char) :
    List α → List Char → Prop
  | close {gap : List Char} (hgap : Gap gap) : Follows item close [] (gap ++ [close])
  | next {x : α} {xs : List α} {gap gap' first others : List Char} (hgap : Gap gap)
      (hgap' : Gap gap') (hitem : item x first) (hothers : Follows item close xs others) :
      Follows item close (x :: xs) (gap ++ ',' :: (gap' ++ (first ++ others)))

/-- What follows the bracket that opens a sequence. -/
inductive Sequence {α : Type} (item : α → List Char → Prop) (close : Char) :
    List α → List Char → Prop
  | empty {gap : List Char} (hgap : Gap gap) : Sequence item close [] (gap ++ [close])
  | items {x : α} {xs : List α} {gap first others : List Char} (hgap : Gap gap)
      (hitem : item x first) (hothers : Follows item close xs others) :
      Sequence item close (x :: xs) (gap ++ (first ++ others))

/-- A key, a colon and a value. -/
inductive Member (may : Char → Prop) {α : Type} (value : α → List Char → Prop) :
    String × α → List Char → Prop
  | intro {k : String} {x : α} {body gap gap' text : List Char}
      (hbody : BodyOf may k.toList body) (hgap : Gap gap) (hgap' : Gap gap')
      (hvalue : value x text) :
      Member may value (k, x) ('"' :: (body ++ '"' :: (gap ++ ':' :: (gap' ++ text))))

/-- The standard texts of a value, where `may` says which characters of its strings can be
written as escapes. -/
inductive Spells (may : Char → Prop) (format : FloatText φ) : Json φ → List Char → Prop
  | null : Spells may format .null ['n', 'u', 'l', 'l']
  | true : Spells may format (.bool true) ['t', 'r', 'u', 'e']
  | false : Spells may format (.bool false) ['f', 'a', 'l', 's', 'e']
  | int (i : Int) : Spells may format (.int i) (intText i)
  | float {literal : List Char} (h : FloatLiteral literal) :
      Spells may format (.float (format.ofText literal)) literal
  | str {s : String} {body : List Char} (hbody : BodyOf may s.toList body) :
      Spells may format (.str s) ('"' :: (body ++ ['"']))
  | arr {xs : List (Json φ)} {text : List Char}
      (h : Sequence (Spells may format) ']' xs text) : Spells may format (.arr xs) ('[' :: text)
  | obj {members : List (String × Json φ)} {text : List Char}
      (h : Sequence (Member may (Spells may format)) '}' members text) :
      Spells may format (.obj members) ('{' :: text)

/-! ### The beginning and the end of a text -/

theorem skip_of_spaces {spaces : List Char} (h : Gap spaces)
    (text : List Char) : skip (spaces ++ text) = skip text := by
  rw [skip, List.dropWhile_append_of_pos h, skip]

/-- The text begins with a character of a value, which no escape hides. -/
def Starts (text : List Char) : Prop :=
  ∃ c tail, text = c :: tail ∧ isSpace c = false ∧ c ∉ [']', '}', '<']

theorem Starts.append {text : List Char} (h : Starts text) (rest : List Char) :
    Starts (text ++ rest) := by
  obtain ⟨c, tail, rfl, hc⟩ := h
  exact ⟨c, tail ++ rest, rfl, hc⟩

theorem Starts.skip {text : List Char} (h : Starts text) : skip text = text := by
  obtain ⟨c, tail, rfl, hspace, -⟩ := h
  rw [Json.skip, List.dropWhile_cons, hspace]
  rfl

theorem starts_whole {whole : List Char} (h : Whole whole) : Starts whole := by
  obtain ⟨c, tail, rfl, hc⟩ := h.head
  have hne : ∀ d : Char, d.isDigit = false → c ≠ d := fun d => ne_of_isDigit hc
  refine ⟨c, tail, rfl, ?_, ?_⟩
  · simp [isSpace, hne]
  · simp [hne]

theorem starts_floatLiteral {literal : List Char} (h : FloatLiteral literal) :
    Starts literal := by
  obtain ⟨minus, whole, fraction, exponent, rfl, hminus, hwhole, -⟩ := h
  simp only [List.mem_cons, List.not_mem_nil, or_false] at hminus
  rcases hminus with rfl | rfl
  · exact ((starts_whole hwhole).append _).append _
  · exact ⟨'-', _, rfl, by decide, by decide⟩

theorem starts_intText (i : Int) : Starts (intText i) := by
  rw [intText]
  split_ifs
  · exact ⟨'-', _, rfl, by decide, by decide⟩
  · exact starts_whole (whole_toDigits i.natAbs)

variable {may : Char → Prop} {format : FloatText φ}

theorem Spells.starts {v : Json φ} {text : List Char} (h : Spells may format v text) :
    Starts text := by
  cases h with
  | int i => exact starts_intText i
  | float h => exact starts_floatLiteral h
  | null | true | false | str | arr | obj => exact ⟨_, _, rfl, by decide, by decide⟩

theorem Member.starts {α : Type} {value : α → List Char → Prop} {member : String × α}
    {text : List Char} (h : Member may value member text) : Starts text := by
  cases h
  exact ⟨'"', _, rfl, by decide, by decide⟩

/-- The text begins with a character that ends an item or a member. -/
def Closes (text : List Char) : Prop :=
  ∃ c tail, text = c :: tail ∧ c ∈ [',', '\n', ']', '}']

theorem Closes.ends {text : List Char} (h : Closes text) : Ends text := by
  obtain ⟨c, tail, rfl, hc⟩ := h
  intro c' tail' heq
  obtain ⟨rfl, -⟩ := List.cons.inj heq
  have hall : ∀ c ∈ [',', '\n', ']', '}'],
      c.isDigit = false ∧ c ≠ '.' ∧ c ≠ 'e' ∧ c ≠ 'E' := by
    simp only [List.forall_mem_cons, List.not_mem_nil, false_implies, implies_true, and_true]
    decide
  exact hall c hc

theorem ends_gap {gap text : List Char} (hgap : Gap gap) (h : Ends text) :
    Ends (gap ++ text) := by
  cases gap with
  | nil => exact h
  | cons c gap =>
      intro d tail heq
      have hspace := hgap c List.mem_cons_self
      rw [(List.cons.inj heq).1] at hspace
      simp only [isSpace, Bool.or_eq_true, decide_eq_true_eq] at hspace
      rcases hspace with ((rfl | rfl) | rfl) | rfl <;> decide

/-- No number goes on into what follows an item. -/
theorem Follows.ends {α : Type} {item : α → List Char → Prop} {close : Char}
    (hclose : close = ']' ∨ close = '}') {xs : List α} {text : List Char}
    (h : Follows item close xs text) (rest : List Char) : Ends (text ++ rest) := by
  cases h with
  | close hgap =>
      rw [List.append_assoc]
      refine ends_gap hgap (Closes.ends ⟨close, rest, rfl, ?_⟩)
      rcases hclose with rfl | rfl <;> decide
  | next hgap =>
      rw [List.append_assoc]
      exact ends_gap hgap (Closes.ends ⟨',', _, rfl, by decide⟩)

/-! ### Reading back -/

/-- Wherever a text of the value stands, it reads as the value. -/
def Readable (may : Char → Prop) (format : FloatText φ) (v : Json φ) : Prop :=
  ∀ text rest fuel, Spells may format v text → Ends rest →
    2 * (text ++ rest).length < fuel → parseValue format fuel (text ++ rest) = some (v, rest)

theorem skip_gap {gap : List Char} (hgap : Gap gap) {c : Char} (hc : isSpace c = false)
    (text : List Char) : skip (gap ++ c :: text) = c :: text := by
  rw [skip_of_spaces hgap, skip, List.dropWhile_cons, hc]
  rfl

theorem skip_starts {gap text : List Char} (hgap : Gap gap) (h : Starts text) :
    skip (gap ++ text) = text := by
  rw [skip_of_spaces hgap, h.skip]

/-- What follows an item of an array. -/
theorem parseItems_follows {xs : List (Json φ)} (h : ∀ x ∈ xs, Readable may format x)
    {text : List Char} (htext : Follows (Spells may format) ']' xs text) (rest : List Char)
    {fuel : Nat} (hfuel : 2 * (text ++ rest).length < fuel) :
    parseItems format fuel (skip (text ++ rest)) = some (xs, rest) := by
  induction htext generalizing fuel with
  | close hgap =>
      obtain ⟨fuel, rfl⟩ := Nat.exists_eq_add_one_of_ne_zero (Nat.ne_zero_of_lt hfuel)
      rw [List.append_assoc, List.singleton_append, skip_gap hgap rfl]
      rfl
  | @next x xs gap gap' first others hgap hgap' hitem hothers ih =>
      obtain ⟨hx, hxs⟩ := List.forall_mem_cons.mp h
      obtain ⟨fuel, rfl⟩ := Nat.exists_eq_add_one_of_ne_zero (Nat.ne_zero_of_lt hfuel)
      simp only [List.length_append, List.length_cons] at hfuel
      have hvalue : parseValue format fuel (first ++ (others ++ rest)) =
          some (x, others ++ rest) := by
        apply hx first (others ++ rest) fuel hitem (hothers.ends (Or.inl rfl) rest)
        simp only [List.length_append]
        omega
      have hitems : parseItems format fuel (skip (others ++ rest)) = some (xs, rest) := by
        apply ih hxs
        simp only [List.length_append]
        omega
      have hskip : skip (gap' ++ (first ++ others) ++ rest) = first ++ (others ++ rest) := by
        rw [List.append_assoc, List.append_assoc, skip_starts hgap' (hitem.starts.append _)]
      rw [List.append_assoc, List.cons_append, skip_gap hgap rfl, parseItems]
      simp only [hskip, hvalue, hitems, bind, Option.bind, pure]
      rfl

/-- What follows the opening bracket of an array. -/
theorem parseArray_sequence {xs : List (Json φ)} (h : ∀ x ∈ xs, Readable may format x)
    {text : List Char} (htext : Sequence (Spells may format) ']' xs text) (rest : List Char)
    {fuel : Nat} (hfuel : 2 * (text ++ rest).length + 1 < fuel) :
    parseArray format fuel (skip (text ++ rest)) = some (xs, rest) := by
  obtain ⟨fuel, rfl⟩ := Nat.exists_eq_add_one_of_ne_zero (Nat.ne_zero_of_lt hfuel)
  cases htext with
  | empty hgap =>
      rw [List.append_assoc, List.singleton_append, skip_gap hgap rfl]
      rfl
  | @items x xs gap first others hgap hitem hothers =>
      obtain ⟨hx, hxs⟩ := List.forall_mem_cons.mp h
      simp only [List.length_append] at hfuel
      have hvalue : parseValue format fuel (first ++ (others ++ rest)) =
          some (x, others ++ rest) := by
        apply hx first (others ++ rest) fuel hitem (hothers.ends (Or.inl rfl) rest)
        simp only [List.length_append]
        omega
      have hitems : parseItems format fuel (skip (others ++ rest)) = some (xs, rest) := by
        apply parseItems_follows hxs hothers
        simp only [List.length_append]
        omega
      obtain ⟨c, tail, heq, -, hc⟩ := hitem.starts.append (others ++ rest)
      have hbracket : c ≠ ']' := fun h => hc (by simp [h])
      rw [List.append_assoc, List.append_assoc, skip_starts hgap (hitem.starts.append _), heq]
      rw [heq] at hvalue
      rw [parseArray, if_neg hbracket]
      simp only [hvalue, hitems, bind, Option.bind, pure]

theorem scanString_body {s : String} {body : List Char} (h : BodyOf may s.toList body)
    (rest : List Char) :
    scanString ((body ++ '"' :: rest).length + 1) (body ++ '"' :: rest) =
      some (s.toList, rest) := by
  apply h.scanString
  simp only [List.length_append, List.length_cons]
  omega

/-- A key and a value that reads back. -/
theorem parseMember_member {member : String × Json φ} (h : Readable may format member.2)
    {text : List Char} (htext : Member may (Spells may format) member text) {rest : List Char}
    (hrest : Ends rest) {fuel : Nat} (hfuel : 2 * (text ++ rest).length < fuel) :
    parseMember format fuel (text ++ rest) = some (member, rest) := by
  obtain ⟨fuel, rfl⟩ := Nat.exists_eq_add_one_of_ne_zero (Nat.ne_zero_of_lt hfuel)
  cases htext with
  | @intro k x body gap gap' text hbody hgap hgap' hvalue =>
      simp only [List.length_append, List.length_cons] at hfuel
      have hread : parseValue format fuel (text ++ rest) = some (x, rest) := by
        apply h text rest fuel hvalue hrest
        simp only [List.length_append]
        omega
      have htext : '"' :: (body ++ '"' :: (gap ++ ':' :: (gap' ++ text))) ++ rest =
          '"' :: (body ++ '"' :: (gap ++ ':' :: (gap' ++ (text ++ rest)))) := by simp
      have hcolon := skip_gap hgap (rfl : isSpace ':' = false) (gap' ++ (text ++ rest))
      have hskip := skip_starts hgap' (hvalue.starts.append rest)
      rw [htext, parseMember, if_pos rfl, scanString_body hbody]
      simp only [bind, Option.bind, pure, hcolon, hskip, hread, String.ofList_toList]

/-- What follows a member of an object. -/
theorem parseMembers_follows {members : List (String × Json φ)}
    (h : ∀ m ∈ members, Readable may format m.2) {text : List Char}
    (htext : Follows (Member may (Spells may format)) '}' members text) (rest : List Char)
    {fuel : Nat} (hfuel : 2 * (text ++ rest).length < fuel) :
    parseMembers format fuel (skip (text ++ rest)) = some (members, rest) := by
  induction htext generalizing fuel with
  | close hgap =>
      obtain ⟨fuel, rfl⟩ := Nat.exists_eq_add_one_of_ne_zero (Nat.ne_zero_of_lt hfuel)
      rw [List.append_assoc, List.singleton_append, skip_gap hgap rfl]
      rfl
  | @next member members gap gap' first others hgap hgap' hitem hothers ih =>
      obtain ⟨hmember, hmembers⟩ := List.forall_mem_cons.mp h
      obtain ⟨fuel, rfl⟩ := Nat.exists_eq_add_one_of_ne_zero (Nat.ne_zero_of_lt hfuel)
      simp only [List.length_append, List.length_cons] at hfuel
      have hread : parseMember format fuel (first ++ (others ++ rest)) =
          some (member, others ++ rest) := by
        apply parseMember_member hmember hitem (hothers.ends (Or.inr rfl) rest)
        simp only [List.length_append]
        omega
      have hreads : parseMembers format fuel (skip (others ++ rest)) = some (members, rest) := by
        apply ih hmembers
        simp only [List.length_append]
        omega
      have hskip : skip (gap' ++ (first ++ others) ++ rest) = first ++ (others ++ rest) := by
        rw [List.append_assoc, List.append_assoc, skip_starts hgap' (hitem.starts.append _)]
      rw [List.append_assoc, List.cons_append, skip_gap hgap rfl, parseMembers]
      simp only [hskip, hread, hreads, bind, Option.bind, pure]
      rfl

/-- What follows the opening brace of an object. -/
theorem parseObject_sequence {members : List (String × Json φ)}
    (h : ∀ m ∈ members, Readable may format m.2) {text : List Char}
    (htext : Sequence (Member may (Spells may format)) '}' members text) (rest : List Char)
    {fuel : Nat} (hfuel : 2 * (text ++ rest).length + 1 < fuel) :
    parseObject format fuel (skip (text ++ rest)) = some (members, rest) := by
  obtain ⟨fuel, rfl⟩ := Nat.exists_eq_add_one_of_ne_zero (Nat.ne_zero_of_lt hfuel)
  cases htext with
  | empty hgap =>
      rw [List.append_assoc, List.singleton_append, skip_gap hgap rfl]
      rfl
  | @items member members gap first others hgap hitem hothers =>
      obtain ⟨hmember, hmembers⟩ := List.forall_mem_cons.mp h
      simp only [List.length_append] at hfuel
      have hread : parseMember format fuel (first ++ (others ++ rest)) =
          some (member, others ++ rest) := by
        apply parseMember_member hmember hitem (hothers.ends (Or.inr rfl) rest)
        simp only [List.length_append]
        omega
      have hreads : parseMembers format fuel (skip (others ++ rest)) = some (members, rest) := by
        apply parseMembers_follows hmembers hothers
        simp only [List.length_append]
        omega
      obtain ⟨c, tail, heq, -, hc⟩ := hitem.starts.append (others ++ rest)
      have hbrace : c ≠ '}' := fun h => hc (by simp [h])
      rw [List.append_assoc, List.append_assoc, skip_starts hgap (hitem.starts.append _), heq]
      rw [heq] at hread
      rw [parseObject, if_neg hbrace]
      simp only [hread, hreads, bind, Option.bind, pure]

theorem scanWord_append (word : List Char) (v : Json φ) (rest : List Char) :
    scanWord word v (word ++ rest) = some (v, rest) := by
  rw [scanWord, if_pos (List.prefix_append word rest), List.drop_left]

/-- A value that begins as numbers do is read as a number. -/
theorem parseValue_number {text rest : List Char} {n : Number}
    (hhead : ∃ c tail, text = c :: tail ∧ (c.isDigit = true ∨ c = '-'))
    (hscan : scanNumber (text ++ rest) = some (n, rest)) (fuel : Nat) :
    parseValue format (fuel + 1) (text ++ rest) = some (ofNumber format n, rest) := by
  obtain ⟨c, tail, rfl, hc⟩ := hhead
  have hne : ∀ d : Char, d.isDigit = false → d ≠ '-' → c ≠ d := by
    intro d hd hminus
    rcases hc with hc | rfl
    · exact ne_of_isDigit hc hd
    · exact hminus.symm
  rw [List.cons_append] at hscan ⊢
  rw [parseValue]
  simp [hne, hscan]

theorem head_intText (i : Int) :
    ∃ c tail, intText i = c :: tail ∧ (c.isDigit = true ∨ c = '-') := by
  rw [intText]
  split_ifs
  · exact ⟨'-', _, rfl, Or.inr rfl⟩
  · obtain ⟨c, tail, heq, hc⟩ := (whole_toDigits i.natAbs).head
    exact ⟨c, tail, heq, Or.inl hc⟩

theorem head_floatLiteral {literal : List Char} (h : FloatLiteral literal) :
    ∃ c tail, literal = c :: tail ∧ (c.isDigit = true ∨ c = '-') := by
  obtain ⟨minus, whole, fraction, exponent, rfl, hminus, hwhole, -⟩ := h
  simp only [List.mem_cons, List.not_mem_nil, or_false] at hminus
  rcases hminus with rfl | rfl
  · obtain ⟨c, tail, rfl, hc⟩ := hwhole.head
    exact ⟨c, _, rfl, Or.inl hc⟩
  · exact ⟨'-', _, rfl, Or.inr rfl⟩

/-- Every text of a value reads back. -/
theorem readable (v : Json φ) : Readable may format v := by
  induction v using tree_induction with
  | null =>
      intro text rest fuel htext _ hfuel
      obtain ⟨fuel, rfl⟩ := Nat.exists_eq_add_one_of_ne_zero (Nat.ne_zero_of_lt hfuel)
      cases htext
      exact scanWord_append ['u', 'l', 'l'] .null rest
  | bool b =>
      intro text rest fuel htext _ hfuel
      obtain ⟨fuel, rfl⟩ := Nat.exists_eq_add_one_of_ne_zero (Nat.ne_zero_of_lt hfuel)
      cases htext with
      | true => exact scanWord_append ['r', 'u', 'e'] (.bool true) rest
      | false => exact scanWord_append ['a', 'l', 's', 'e'] (.bool false) rest
  | int i =>
      intro text rest fuel htext hrest hfuel
      obtain ⟨fuel, rfl⟩ := Nat.exists_eq_add_one_of_ne_zero (Nat.ne_zero_of_lt hfuel)
      cases htext
      exact parseValue_number (head_intText i) (scanNumber_intText i hrest) fuel
  | float q =>
      intro text rest fuel htext hrest hfuel
      obtain ⟨fuel, rfl⟩ := Nat.exists_eq_add_one_of_ne_zero (Nat.ne_zero_of_lt hfuel)
      cases htext with
      | float h =>
          exact parseValue_number (head_floatLiteral h) (scanNumber_floatLiteral h hrest) fuel
  | str s =>
      intro text rest fuel htext _ hfuel
      obtain ⟨fuel, rfl⟩ := Nat.exists_eq_add_one_of_ne_zero (Nat.ne_zero_of_lt hfuel)
      cases htext with
      | str hbody =>
          rw [List.cons_append, List.append_assoc, List.singleton_append, parseValue, if_pos rfl,
            scanString_body hbody]
          simp only [bind, Option.bind, pure, String.ofList_toList]
  | arr xs ih =>
      intro text rest fuel htext _ hfuel
      obtain ⟨fuel, rfl⟩ := Nat.exists_eq_add_one_of_ne_zero (Nat.ne_zero_of_lt hfuel)
      cases htext with
      | @arr _ text h =>
          have harray : parseArray format fuel (skip (text ++ rest)) = some (xs, rest) := by
            apply parseArray_sequence ih h
            simp only [List.length_append, List.length_cons] at hfuel ⊢
            omega
          rw [List.cons_append, parseValue]
          simp only [harray, bind, Option.bind, pure]
          rfl
  | obj members ih =>
      intro text rest fuel htext _ hfuel
      obtain ⟨fuel, rfl⟩ := Nat.exists_eq_add_one_of_ne_zero (Nat.ne_zero_of_lt hfuel)
      cases htext with
      | @obj _ text h =>
          have hobject : parseObject format fuel (skip (text ++ rest)) = some (members, rest) := by
            apply parseObject_sequence ih h
            simp only [List.length_append, List.length_cons] at hfuel ⊢
            omega
          rw [List.cons_append, parseValue]
          simp only [hobject, bind, Option.bind, pure]
          rfl

/-! ### The printed text -/

theorem spaces_newline (indent : Option Nat) (level : Nat) : Gap (newline indent level) := by
  intro c hc
  cases indent with
  | none => cases hc
  | some n =>
      rcases List.mem_cons.mp hc with rfl | hc
      · rfl
      · rw [(List.mem_replicate.mp hc).2]
        rfl

theorem lt_not_mem_newline (indent : Option Nat) (level : Nat) : '<' ∉ newline indent level := by
  intro hmem
  exact absurd (spaces_newline indent level '<' hmem) (by decide)

theorem lt_not_mem_digits {ds : List Char} (h : Digits ds) : '<' ∉ ds := by
  intro hmem
  exact absurd (h '<' hmem) (by decide)

theorem lt_not_mem_whole {whole : List Char} (h : Whole whole) : '<' ∉ whole := by
  cases h with
  | zero => decide
  | digits _ h => exact lt_not_mem_digits h

theorem lt_not_mem_intText (i : Int) : '<' ∉ intText i := by
  have hdigits := lt_not_mem_whole (whole_toDigits i.natAbs)
  rw [intText]
  split_ifs <;> simp [hdigits]

theorem lt_not_mem_floatLiteral {literal : List Char} (h : FloatLiteral literal) :
    '<' ∉ literal := by
  obtain ⟨minus, whole, fraction, exponent, rfl, hminus, hwhole, hfraction, hexponent, -⟩ := h
  have hminus' : '<' ∉ minus := by
    simp only [List.mem_cons, List.not_mem_nil, or_false] at hminus
    rcases hminus with rfl | rfl <;> decide
  have hfraction' : '<' ∉ fraction := by
    cases hfraction with
    | none => decide
    | digits _ h => simp [lt_not_mem_digits h]
  have hexponent' : '<' ∉ exponent := by
    cases hexponent with
    | none => decide
    | digits hsign _ h =>
        simp only [List.mem_cons, List.not_mem_nil, or_false] at hsign
        rcases hsign with rfl | rfl | rfl <;> simp [lt_not_mem_digits h]
  simp [hminus', lt_not_mem_whole hwhole, hfraction', hexponent']

variable {indent : Option Nat}

/-- A separator is a comma and spaces. -/
theorem separator_eq (indent : Option Nat) (level : Nat) :
    ∃ gap, separator indent level = ',' :: gap ∧ Gap gap := by
  cases indent with
  | none => exact ⟨[' '], rfl, List.forall_mem_singleton.mpr rfl⟩
  | some n => exact ⟨_, rfl, spaces_newline (some n) level⟩

/-- Wherever the text of the value stands, it reads as the value, with some of its `<`
escaped or without. -/
def Reads (format : FloatText φ) (indent : Option Nat) (v : Json φ) : Prop :=
  ∀ level text rest fuel, Escapes (dump format indent level v) text → Ends rest →
    2 * (text ++ rest).length < fuel → parseValue format fuel (text ++ rest) = some (v, rest)

/-- The text of a member. -/
def dumpMember {σ : Type} [Quoted σ] (format : FloatText φ) (indent : Option Nat) (level : Nat)
    (member : σ × Json φ σ) : List Char :=
  Quoted.quote member.1 ++ ([':', ' '] ++ dump format indent level member.2)

theorem dumpItems_eq {σ : Type} [Quoted σ] (level : Nat) (xs : List (Json φ σ)) :
    dumpItems format indent level xs =
      xs.flatMap fun x => separator indent level ++ dump format indent level x := by
  induction xs with
  | nil => rfl
  | cons x xs ih => rw [dumpItems, ih, List.flatMap_cons]

theorem dumpMembers_eq {σ : Type} [Quoted σ] (level : Nat) (members : List (σ × Json φ σ)) :
    dumpMembers format indent level members =
      members.flatMap fun m => separator indent level ++ dumpMember format indent level m := by
  induction members with
  | nil => rfl
  | cons m members ih => simp [dumpMembers, ih, dumpMember]

theorem newline_close {level : Nat} {close : Char} (hclose : close ≠ '<')
    {text : List Char} (h : Escapes (newline indent level ++ [close]) text) :
    text = newline indent level ++ [close] :=
  h.eq_of_not_mem (by simp [lt_not_mem_newline indent level, hclose.symm])

/-- Items that are printed one after the other. -/
theorem follows_escapes {α : Type} {item : α → List Char → Prop} {print : α → List Char}
    {close : Char} (hclose : close ≠ '<') {level outer : Nat} {xs : List α}
    (h : ∀ x ∈ xs, ∀ text, Escapes (print x) text → item x text) {text : List Char}
    (htext : Escapes ((xs.flatMap fun x => separator indent level ++ print x) ++
      (newline indent outer ++ [close])) text) : Follows item close xs text := by
  induction xs generalizing text with
  | nil =>
      rw [List.flatMap_nil, List.nil_append] at htext
      rw [newline_close hclose htext]
      exact .close (spaces_newline indent outer)
  | cons x xs ih =>
      obtain ⟨hx, hxs⟩ := List.forall_mem_cons.mp h
      obtain ⟨gap, hseparator, hgap⟩ := separator_eq indent level
      rw [List.flatMap_cons, hseparator, List.append_assoc, List.append_assoc,
        List.cons_append] at htext
      cases htext with
      | keep _ htext =>
          obtain ⟨gap', others, rfl, hgap', hothers⟩ := htext.split
          obtain ⟨first, others, rfl, hfirst, hothers⟩ := hothers.split
          have hlt : '<' ∉ gap := fun hmem => absurd (hgap '<' hmem) (by decide)
          rw [hgap'.eq_of_not_mem hlt]
          rw [hseparator] at ih
          exact .next gap_nil hgap (hx first hfirst) (ih hxs hothers)

/-- The same after the opening bracket. -/
theorem sequence_escapes {α : Type} {item : α → List Char → Prop} {print : α → List Char}
    {close : Char} (hclose : close ≠ '<') {level : Nat} {x : α} {xs : List α}
    (h : ∀ y ∈ x :: xs, ∀ text, Escapes (print y) text → item y text) {text : List Char}
    (htext : Escapes (newline indent (level + 1) ++ (print x ++
      ((xs.flatMap fun x => separator indent (level + 1) ++ print x) ++
        (newline indent level ++ [close])))) text) : Sequence item close (x :: xs) text := by
  obtain ⟨hx, hxs⟩ := List.forall_mem_cons.mp h
  obtain ⟨gap, others, rfl, hgap, hothers⟩ := htext.split
  obtain ⟨first, others, rfl, hfirst, hothers⟩ := hothers.split
  rw [hgap.eq_of_not_mem (lt_not_mem_newline _ _)]
  exact .items (spaces_newline _ _) (hx first hfirst) (follows_escapes hclose hxs hothers)

theorem escapes_quote {s : String} {text : List Char} (h : Escapes (quote s) text) :
    ∃ body, text = '"' :: (body ++ ['"']) ∧ BodyOf (fun _ => True) s.toList body := by
  rw [quote, List.cons_append] at h
  cases h with
  | keep _ h =>
      obtain ⟨body, close, rfl, hbody, hclose⟩ := h.split
      rw [hclose.eq_of_not_mem (by decide)]
      exact ⟨body, rfl, bodyOf_escapes hbody⟩

/-- The printed text is a text of the value, with some of its `<` escaped or without. -/
theorem spells_dump {v : Json φ} (h : ∀ q ∈ v.floats, format.Lawful q) {level : Nat}
    {text : List Char} (htext : Escapes (dump format indent level v) text) :
    Spells (fun _ => True) format v text := by
  induction v using tree_induction generalizing level text with
  | null =>
      rw [htext.eq_of_not_mem (by simp [dump])]
      exact .null
  | bool b =>
      cases b with
      | true =>
          rw [htext.eq_of_not_mem (by simp [dump])]
          exact .true
      | false =>
          rw [htext.eq_of_not_mem (by simp [dump])]
          exact .false
  | int i =>
      rw [dump] at htext
      rw [htext.eq_of_not_mem (lt_not_mem_intText i)]
      exact .int i
  | float q =>
      obtain ⟨hliteral, hvalue⟩ := h q (List.mem_singleton_self q)
      rw [dump] at htext
      rw [htext.eq_of_not_mem (lt_not_mem_floatLiteral hliteral)]
      have hspells : Spells (fun _ => True) format (.float (format.ofText (format.repr q)))
          (format.repr q) := .float hliteral
      rwa [hvalue] at hspells
  | str s =>
      obtain ⟨body, rfl, hbody⟩ := escapes_quote htext
      exact .str hbody
  | arr xs ih =>
      rw [floats, floatsItems_eq] at h
      have hitems : ∀ x ∈ xs, ∀ text, Escapes (dump format indent (level + 1) x) text →
          Spells (fun _ => True) format x text := fun x hx text htext =>
        ih x hx (fun q hq => h q (List.mem_flatMap.mpr ⟨x, hx, hq⟩)) htext
      cases xs with
      | nil =>
          rw [htext.eq_of_not_mem (by simp [dump])]
          exact .arr (.empty gap_nil)
      | cons x xs =>
          simp only [dump, dumpItems_eq, List.append_assoc, List.cons_append] at htext
          cases htext with
          | keep _ htext => exact .arr (sequence_escapes (by decide) hitems htext)
  | obj members ih =>
      rw [floats, floatsMembers_eq] at h
      have hmembers : ∀ m ∈ members, ∀ text,
          Escapes (dumpMember format indent (level + 1) m) text →
            Member (fun _ => True) (Spells (fun _ => True) format) m text := by
        intro m hm text htext
        have hvalue : ∀ {text}, Escapes (dump format indent (level + 1) m.2) text →
            Spells (fun _ => True) format m.2 text := fun htext =>
          ih m hm (fun q hq => h q (List.mem_flatMap.mpr ⟨m, hm, hq⟩)) htext
        obtain ⟨key, others, rfl, hkey, hothers⟩ := htext.split
        obtain ⟨colon, value, rfl, hcolon, hprinted⟩ := hothers.split
        obtain ⟨body, rfl, hbody⟩ := escapes_quote hkey
        have hmember : '"' :: (body ++ ['"']) ++ ([':', ' '] ++ value) =
            '"' :: (body ++ '"' :: ([] ++ ':' :: ([' '] ++ value))) := by simp
        rw [hcolon.eq_of_not_mem (by decide), hmember]
        exact .intro hbody gap_nil (List.forall_mem_singleton.mpr rfl) (hvalue hprinted)
      cases members with
      | nil =>
          rw [htext.eq_of_not_mem (by simp [dump])]
          exact .obj (.empty gap_nil)
      | cons member members =>
          have hdump : dump format indent level (.obj (member :: members)) =
              '{' :: (newline indent (level + 1) ++ (dumpMember format indent (level + 1) member ++
                (dumpMembers format indent (level + 1) members ++
                  (newline indent level ++ ['}'])))) := by
            simp [dump, dumpMember]
          rw [hdump, dumpMembers_eq] at htext
          cases htext with
          | keep _ htext => exact .obj (sequence_escapes (by decide) hmembers htext)

/-- Every printed value reads back. -/
theorem reads {v : Json φ} (h : ∀ q ∈ v.floats, format.Lawful q) : Reads format indent v :=
  fun _ text rest fuel htext => readable v text rest fuel (spells_dump h htext)

/-- A printed value reads back, escapes put into its text or not, between spaces. -/
theorem parse_escapes {v : Json φ} (h : ∀ q ∈ v.floats, format.Lawful q) {level : Nat}
    {text : List Char} (htext : Escapes (dump format indent level v) text)
    {before after : List Char} (hbefore : ∀ c ∈ before, isSpace c = true)
    (hafter : ∀ c ∈ after, isSpace c = true) :
    parse format (before ++ text ++ after) = some v := by
  have hstarts : Starts (text ++ after) := (spells_dump h htext).starts.append after
  have hskip : skip (before ++ text ++ after) = text ++ after := by
    rw [List.append_assoc, skip_of_spaces hbefore, hstarts.skip]
  have hends : Ends after := by
    intro c tail heq
    have hspace := hafter c (heq ▸ List.mem_cons_self)
    simp only [isSpace, Bool.or_eq_true, decide_eq_true_eq] at hspace
    rcases hspace with ((rfl | rfl) | rfl) | rfl <;> decide
  have hvalue : parseValue format (2 * (before ++ text ++ after).length + 1) (text ++ after) =
      some (v, after) := by
    apply reads h level text after _ htext hends
    simp only [List.length_append]
    omega
  have hend : skip after = [] := by
    have hspaces := skip_of_spaces hafter []
    rwa [List.append_nil] at hspaces
  rw [parse, hskip, hvalue]
  simp only [bind, Option.bind, hend, if_true, pure]

/-! ### Strings that are no text -/

mutual

/-- The value with the code points of its texts. -/
def codePoints : Json φ → Json φ (List CodePoint)
  | .null => .null
  | .bool b => .bool b
  | .int i => .int i
  | .float q => .float q
  | .str s => .str (points s)
  | .arr xs => .arr (codePointsItems xs)
  | .obj members => .obj (codePointsMembers members)

def codePointsItems : List (Json φ) → List (Json φ (List CodePoint))
  | [] => []
  | x :: xs => codePoints x :: codePointsItems xs

def codePointsMembers : List (String × Json φ) → List (List CodePoint × Json φ (List CodePoint))
  | [] => []
  | (k, x) :: members => (points k, codePoints x) :: codePointsMembers members

end

theorem codePointsItems_eq (xs : List (Json φ)) : codePointsItems xs = xs.map codePoints := by
  induction xs with
  | nil => rfl
  | cons x xs ih => rw [codePointsItems, ih, List.map_cons]

theorem codePointsMembers_eq (members : List (String × Json φ)) :
    codePointsMembers members = members.map (Prod.map points codePoints) := by
  induction members with
  | nil => rfl
  | cons m members ih => rw [codePointsMembers, ih, List.map_cons, Prod.map]

/-- A text is printed alike whether it is taken as text or by its code points. -/
theorem dump_codePoints (level : Nat) (v : Json φ) :
    dump format indent level v.codePoints = dump format indent level v := by
  induction v using tree_induction generalizing level with
  | null | int i | float q => rfl
  | bool b => cases b <;> rfl
  | str s => exact quoted_points s
  | arr xs ih =>
      cases xs with
      | nil => rfl
      | cons x xs =>
          obtain ⟨hx, hxs⟩ := List.forall_mem_cons.mp ih
          have hitems : ∀ y ∈ xs, separator indent (level + 1) ++
              dump format indent (level + 1) y.codePoints =
                separator indent (level + 1) ++ dump format indent (level + 1) y :=
            fun y hy => by rw [hxs y hy]
          rw [codePoints, codePointsItems, codePointsItems_eq, dump, dump, hx, dumpItems_eq,
            dumpItems_eq, List.flatMap_map, List.flatMap_congr hitems]
  | obj members ih =>
      cases members with
      | nil => rfl
      | cons m members =>
          obtain ⟨k, x⟩ := m
          obtain ⟨hx, hmembers⟩ := List.forall_mem_cons.mp ih
          have hrest : ∀ m ∈ members, separator indent (level + 1) ++
              dumpMember format indent (level + 1) (Prod.map points codePoints m) =
                separator indent (level + 1) ++ dumpMember format indent (level + 1) m :=
            fun m hm => by simp only [dumpMember, Prod.map, quoted_points, quoted_string,
              hmembers m hm]
          rw [codePoints, codePointsMembers, codePointsMembers_eq, dump, dump, quoted_points,
            quoted_string, hx, dumpMembers_eq, dumpMembers_eq, List.flatMap_map,
            List.flatMap_congr hrest]

end Json

end Cositos
