/-
The literals of JSON text: strings, printed with an escape for everything outside printable
ASCII, and numbers, with the scanners that read them back.  Some of the `<` of a text may be
written as escapes, which inside a string literal read as the same character.
-/
import Mathlib.Data.List.Basic
import Mathlib.Data.List.Forall2

namespace Cositos

namespace JsonText

/-! ### String literals -/

/-- The four digits of an escape. -/
def hex4 (n : Nat) : List Char :=
  [(n / 4096 % 16).digitChar, (n / 256 % 16).digitChar, (n / 16 % 16).digitChar,
    (n % 16).digitChar]

def hexValue? (c : Char) : Option Nat :=
  if '0' ≤ c ∧ c ≤ '9' then some (c.toNat - 48)
  else if 'a' ≤ c ∧ c ≤ 'f' then some (c.toNat - 87)
  else if 'A' ≤ c ∧ c ≤ 'F' then some (c.toNat - 55)
  else none

def scanHex4 : List Char → Option (Nat × List Char)
  | a :: b :: c :: d :: rest => do
      let a ← hexValue? a
      let b ← hexValue? b
      let c ← hexValue? c
      let d ← hexValue? d
      return (a * 4096 + b * 256 + c * 16 + d, rest)
  | _ => none

/-- The escape of a code unit. -/
def unicodeEscape (n : Nat) : List Char := '\\' :: 'u' :: hex4 n

/-- A character inside a string literal; beyond the basic plane it takes a surrogate pair. -/
def escapeChar (c : Char) : List Char :=
  if c = '"' then ['\\', '"']
  else if c = '\\' then ['\\', '\\']
  else if c = '\n' then ['\\', 'n']
  else if c = '\r' then ['\\', 'r']
  else if c = '\t' then ['\\', 't']
  else if c.toNat = 12 then ['\\', 'f']
  else if c.toNat = 8 then ['\\', 'b']
  else if ' ' ≤ c ∧ c ≤ '~' then [c]
  else if c.toNat < 65536 then unicodeEscape c.toNat
  else
    unicodeEscape (55296 + (c.toNat - 65536) / 1024 % 1024) ++
      unicodeEscape (56320 + (c.toNat - 65536) % 1024)

/-- A string literal. -/
def quote (s : String) : List Char := '"' :: s.toList.flatMap escapeChar ++ ['"']

/-- A code point of a Python string, which may be a surrogate. -/
abbrev CodePoint := Fin 1114112

/-- A code point inside a string literal; each surrogate is written as an escape of its own. -/
def escapePoint (n : CodePoint) : List Char :=
  if 55296 ≤ n.val ∧ n.val < 57344 then unicodeEscape n else escapeChar (Char.ofNat n)

/-- The literal of a string of code points. -/
def quotePoints (s : List CodePoint) : List Char := '"' :: s.flatMap escapePoint ++ ['"']

theorem toNat_lt (c : Char) : c.toNat < 1114112 := by
  rcases c.valid with hlow | hhigh
  · exact Nat.lt_trans hlow (by decide)
  · exact hhigh.2

/-- The code points of a text. -/
def points (s : String) : List CodePoint := s.toList.map fun c => ⟨c.toNat, toNat_lt c⟩

theorem escapePoint_char (c : Char) : escapePoint ⟨c.toNat, toNat_lt c⟩ = escapeChar c := by
  have hvalid : ¬ (55296 ≤ c.toNat ∧ c.toNat < 57344) := by
    rcases c.valid with hlow | hhigh
    · have hbelow : c.toNat < 55296 := hlow
      omega
    · have habove : 57343 < c.toNat := hhigh.1
      omega
  rw [escapePoint, if_neg hvalid, Char.ofNat_toNat]

theorem quotePoints_points (s : String) : quotePoints (points s) = quote s := by
  rw [quotePoints, points, List.flatMap_map]
  simp only [escapePoint_char, quote]

/-- The character that a letter stands for after a backslash. -/
def simpleEscape? : Char → Option Char
  | '"' => some '"'
  | '\\' => some '\\'
  | '/' => some '/'
  | 'b' => some (Char.ofNat 8)
  | 'f' => some (Char.ofNat 12)
  | 'n' => some '\n'
  | 'r' => some '\r'
  | 't' => some '\t'
  | _ => none

/-- The character that a code unit stands for, with the one after it if the two are a pair.
A surrogate that stands alone is no character. -/
def scanUnit (n : Nat) (rest : List Char) : Option (Char × List Char) :=
  if 55296 ≤ n ∧ n < 56320 then
    match rest with
    | '\\' :: 'u' :: rest => do
        let (m, rest) ← scanHex4 rest
        if 56320 ≤ m ∧ m < 57344 then
          return (Char.ofNat (65536 + (n - 55296) * 1024 + (m - 56320)), rest)
        else none
    | _ => none
  else if 56320 ≤ n ∧ n < 57344 then none
  else some (Char.ofNat n, rest)

/-- One character of a string literal. -/
def scanChar : List Char → Option (Char × List Char)
  | [] | ['\\'] => none
  | '\\' :: 'u' :: rest => do
      let (n, rest) ← scanHex4 rest
      scanUnit n rest
  | '\\' :: c :: rest => do
      let c ← simpleEscape? c
      return (c, rest)
  | c :: rest => if c.toNat < 32 then none else some (c, rest)

/-- What follows the opening quote of a string literal. -/
def scanString : Nat → List Char → Option (List Char × List Char)
  | 0, _ => none
  | _ + 1, '"' :: rest => some ([], rest)
  | fuel + 1, text => do
      let (c, rest) ← scanChar text
      let (s, rest) ← scanString fuel rest
      return (c :: s, rest)

theorem hexValue?_digitChar {n : Nat} (hn : n < 16) : hexValue? n.digitChar = some n := by
  have hall : ∀ m : Fin 16, hexValue? (m : Nat).digitChar = some m.val := by decide
  exact hall ⟨n, hn⟩

theorem scanHex4_hex4 {n : Nat} (hn : n < 65536) (rest : List Char) :
    scanHex4 (hex4 n ++ rest) = some (n, rest) := by
  have hdigit : ∀ k, hexValue? (k % 16).digitChar = some (k % 16) := fun k =>
    hexValue?_digitChar (Nat.mod_lt k (by omega))
  have hsum : n / 4096 % 16 * 4096 + n / 256 % 16 * 256 + n / 16 % 16 * 16 + n % 16 = n := by
    omega
  simp only [hex4, List.cons_append, List.nil_append, scanHex4, hdigit, bind, Option.bind, pure,
    hsum]

theorem scanChar_unicodeEscape {n : Nat} (hn : n < 65536) (rest : List Char) :
    scanChar (unicodeEscape n ++ rest) = scanUnit n rest := by
  rw [unicodeEscape, List.cons_append, List.cons_append, scanChar, scanHex4_hex4 hn]
  rfl

theorem scanUnit_char {c : Char} (hc : c.toNat < 65536) (rest : List Char) :
    scanUnit c.toNat rest = some (c, rest) := by
  have hvalid : c.toNat < 55296 ∨ 57343 < c.toNat := by
    rcases c.valid with hlow | hhigh
    · exact Or.inl hlow
    · exact Or.inr hhigh.1
  unfold scanUnit
  rw [if_neg (by omega), if_neg (by omega), Char.ofNat_toNat]

theorem scanUnit_surrogates {high low : Nat} (hhigh : 55296 ≤ high ∧ high < 56320)
    (hlow : 56320 ≤ low ∧ low < 57344) (rest : List Char) :
    scanUnit high (unicodeEscape low ++ rest) =
      some (Char.ofNat (65536 + (high - 55296) * 1024 + (low - 56320)), rest) := by
  have hhex := scanHex4_hex4 (show low < 65536 by omega) rest
  unfold scanUnit unicodeEscape
  rw [if_pos hhigh]
  simp only [List.cons_append, hhex, bind, Option.bind, pure]
  rw [if_pos hlow]

/-- A character past the basic plane, from its pair of surrogates. -/
theorem scanUnit_pair {c : Char} (hc : 65536 ≤ c.toNat) (rest : List Char) :
    scanUnit (55296 + (c.toNat - 65536) / 1024 % 1024)
      (unicodeEscape (56320 + (c.toNat - 65536) % 1024) ++ rest) = some (c, rest) := by
  have hvalid : c.toNat < 1114112 := by
    rcases c.valid with hlow | hhigh
    · have : c.toNat < 55296 := hlow
      omega
    · exact hhigh.2
  have hchar : 65536 + (55296 + (c.toNat - 65536) / 1024 % 1024 - 55296) * 1024 +
      (56320 + (c.toNat - 65536) % 1024 - 56320) = c.toNat := by
    omega
  rw [scanUnit_surrogates (by omega) (by omega), hchar, Char.ofNat_toNat]

/-- Four digits that are read to their end are read in front of any text. -/
theorem scanHex4_append {digits : List Char} {n : Nat} (h : scanHex4 digits = some (n, [])) :
    (∀ rest, scanHex4 (digits ++ rest) = some (n, rest)) ∧ '<' ∉ digits := by
  unfold scanHex4 at h
  split at h
  · rename_i a b c d after
    simp only [bind, Option.bind_eq_some_iff, pure, Option.some.injEq, Prod.mk.injEq] at h
    obtain ⟨a', ha, b', hb, c', hc, d', hd, rfl, rfl⟩ := h
    have hne : ∀ {x : Char} {k : Nat}, hexValue? x = some k → '<' ≠ x := by
      rintro x k hx rfl
      cases hx
    exact ⟨fun rest => by simp [scanHex4, ha, hb, hc, hd],
      by simp [hne ha, hne hb, hne hc, hne hd]⟩
  · cases h

/-- How a character is written in a string literal, where those that may be are written as
escapes. -/
inductive EscapeOf (may : Char → Prop) : Char → List Char → Prop
  | itself {c : Char} (hquote : c ≠ '"') (hbackslash : c ≠ '\\') (hspace : ' ' ≤ c) :
      EscapeOf may c [c]
  | letter {c : Char} (hmay : may c) (letter : Char) (h : simpleEscape? letter = some c) :
      EscapeOf may c ['\\', letter]
  | unit {c : Char} (hmay : may c) (hbasic : c.toNat < 65536) {digits : List Char}
      (h : scanHex4 digits = some (c.toNat, [])) : EscapeOf may c ('\\' :: 'u' :: digits)
  | pair {c : Char} (hmay : may c) (h : 65536 ≤ c.toNat) :
      EscapeOf may c (unicodeEscape (55296 + (c.toNat - 65536) / 1024 % 1024) ++
        unicodeEscape (56320 + (c.toNat - 65536) % 1024))

theorem escapeOf_escapeChar (c : Char) : EscapeOf (fun _ => True) c (escapeChar c) := by
  unfold escapeChar
  by_cases hquote : c = '"'
  · rw [if_pos hquote]
    have hletter : simpleEscape? '"' = some c := by rw [hquote]; rfl
    exact .letter trivial _ hletter
  by_cases hbackslash : c = '\\'
  · rw [if_neg hquote, if_pos hbackslash]
    have hletter : simpleEscape? '\\' = some c := by rw [hbackslash]; rfl
    exact .letter trivial _ hletter
  by_cases hnewline : c = '\n'
  · rw [if_neg hquote, if_neg hbackslash, if_pos hnewline]
    have hletter : simpleEscape? 'n' = some c := by rw [hnewline]; rfl
    exact .letter trivial _ hletter
  by_cases hreturn : c = '\r'
  · rw [if_neg hquote, if_neg hbackslash, if_neg hnewline, if_pos hreturn]
    have hletter : simpleEscape? 'r' = some c := by rw [hreturn]; rfl
    exact .letter trivial _ hletter
  rw [if_neg hquote, if_neg hbackslash, if_neg hnewline, if_neg hreturn]
  by_cases htab : c = '\t'
  · rw [if_pos htab]
    have hletter : simpleEscape? 't' = some c := by rw [htab]; rfl
    exact .letter trivial _ hletter
  by_cases hfeed : c.toNat = 12
  · rw [if_neg htab, if_pos hfeed]
    have hletter : simpleEscape? 'f' = some c := by rw [← Char.ofNat_toNat c, hfeed]; rfl
    exact .letter trivial _ hletter
  by_cases hback : c.toNat = 8
  · rw [if_neg htab, if_neg hfeed, if_pos hback]
    have hletter : simpleEscape? 'b' = some c := by rw [← Char.ofNat_toNat c, hback]; rfl
    exact .letter trivial _ hletter
  rw [if_neg htab, if_neg hfeed, if_neg hback]
  by_cases hplain : ' ' ≤ c ∧ c ≤ '~'
  · rw [if_pos hplain]
    exact .itself hquote hbackslash hplain.1
  by_cases hbasic : c.toNat < 65536
  · rw [if_neg hplain, if_pos hbasic]
    exact .unit trivial hbasic (by simpa using scanHex4_hex4 hbasic [])
  · rw [if_neg hplain, if_neg hbasic]
    exact .pair trivial (Nat.le_of_not_lt hbasic)

/-- A character reads back from its escape. -/
theorem EscapeOf.scanChar {may : Char → Prop} {c : Char} {text : List Char}
    (h : EscapeOf may c text) (rest : List Char) :
    scanChar (text ++ rest) = some (c, rest) := by
  cases h with
  | itself hquote hbackslash hspace =>
      have hcontrol : ¬ c.toNat < 32 := Nat.not_lt.mpr hspace
      rw [List.singleton_append]
      unfold JsonText.scanChar
      split <;> simp_all
  | letter _ letter h =>
      have hunit : letter ≠ 'u' := by
        rintro rfl
        cases h
      simp [JsonText.scanChar, h]
  | unit _ hbasic h =>
      rw [List.cons_append, List.cons_append, JsonText.scanChar, (scanHex4_append h).1]
      exact scanUnit_char hbasic rest
  | pair _ h => rw [List.append_assoc, scanChar_unicodeEscape (by omega), scanUnit_pair h]

/-! ### Escapes put into a printed text -/

/-- The second text is the first with some of its `<` written as escapes. -/
inductive Escapes : List Char → List Char → Prop
  | nil : Escapes [] []
  | keep (c : Char) {text text' : List Char} (h : Escapes text text') :
      Escapes (c :: text) (c :: text')
  | escape {text text' : List Char} (h : Escapes text text') :
      Escapes ('<' :: text) ('\\' :: 'u' :: '0' :: '0' :: '3' :: 'c' :: text')

theorem Escapes.split {a b text : List Char} (h : Escapes (a ++ b) text) :
    ∃ a' b', text = a' ++ b' ∧ Escapes a a' ∧ Escapes b b' := by
  induction a generalizing text with
  | nil => exact ⟨[], text, rfl, .nil, h⟩
  | cons c a ih =>
      rw [List.cons_append] at h
      cases h with
      | keep _ h =>
          obtain ⟨a', b', rfl, ha, hb⟩ := ih h
          exact ⟨c :: a', b', rfl, .keep c ha, hb⟩
      | escape h =>
          obtain ⟨a', b', rfl, ha, hb⟩ := ih h
          exact ⟨'\\' :: 'u' :: '0' :: '0' :: '3' :: 'c' :: a', b', rfl, .escape ha, hb⟩

theorem Escapes.eq_of_not_mem {text text' : List Char} (h : Escapes text text')
    (hmem : '<' ∉ text) : text' = text := by
  induction h with
  | nil => rfl
  | keep c _ ih => rw [ih fun hmem' => hmem (List.mem_cons_of_mem c hmem')]
  | escape => exact absurd List.mem_cons_self hmem

theorem digitChar_ne_lt (n : Nat) : (n % 16).digitChar ≠ '<' := by
  have hall : ∀ m : Fin 16, (m : Nat).digitChar ≠ '<' := by decide
  exact hall ⟨n % 16, Nat.mod_lt n (by omega)⟩

theorem lt_not_mem_unicodeEscape (n : Nat) : '<' ∉ unicodeEscape n := by
  have hdigit : ∀ k, '<' ≠ (k % 16).digitChar := fun k => (digitChar_ne_lt k).symm
  simp [unicodeEscape, hex4, hdigit]

/-- A character stands for itself, or its escape begins with a backslash and holds no `<`. -/
theorem EscapeOf.cases {may : Char → Prop} {c : Char} {text : List Char}
    (h : EscapeOf may c text) :
    (text = [c] ∧ c ≠ '"' ∧ ' ' ≤ c) ∨
      (may c ∧ '<' ∉ text ∧ ∃ tail, text = '\\' :: tail) := by
  cases h with
  | itself hquote _ hspace => exact Or.inl ⟨rfl, hquote, hspace⟩
  | letter hmay letter h =>
      have hletter : letter ≠ '<' := by
        rintro rfl
        cases h
      exact Or.inr ⟨hmay, by simp [hletter.symm], _, rfl⟩
  | unit hmay _ h => exact Or.inr ⟨hmay, by simp [(scanHex4_append h).2], _, rfl⟩
  | pair hmay => exact Or.inr ⟨hmay, by simp [lt_not_mem_unicodeEscape], _, rfl⟩

theorem EscapeOf.of_may {may may' : Char → Prop} {c : Char} {text : List Char}
    (h : EscapeOf may c text) (hmay : may' c) : EscapeOf may' c text := by
  cases h with
  | itself hquote hbackslash hspace => exact .itself hquote hbackslash hspace
  | letter _ letter h => exact .letter hmay letter h
  | unit _ hbasic h => exact .unit hmay hbasic h
  | pair _ h => exact .pair hmay h

theorem EscapeOf.head {may : Char → Prop} {c : Char} {text : List Char}
    (h : EscapeOf may c text) : ∃ d tail, text = d :: tail ∧ d ≠ '"' := by
  rcases h.cases with ⟨rfl, hquote, -⟩ | ⟨-, -, tail, rfl⟩
  · exact ⟨c, [], rfl, hquote⟩
  · exact ⟨'\\', tail, rfl, by decide⟩

/-- A character whose `<`, if it is one, may be written as an escape besides. -/
theorem escapeOf_escapes {c : Char} {text : List Char} (h : Escapes (escapeChar c) text) :
    EscapeOf (fun _ => True) c text := by
  have hescape := escapeOf_escapeChar c
  by_cases hc : c = '<'
  · subst hc
    cases h with
    | keep _ h =>
        cases h
        exact hescape
    | escape h =>
        cases h
        have hdigits : scanHex4 ['0', '0', '3', 'c'] = some (('<').toNat, []) := rfl
        exact .unit trivial (by decide) hdigits
  · have hlt : '<' ∉ escapeChar c := by
      rcases hescape.cases with ⟨heq, -⟩ | ⟨-, hlt, -⟩
      · simp [heq, Ne.symm hc]
      · exact hlt
    rw [h.eq_of_not_mem hlt]
    exact hescape

/-! ### String literals with escapes -/

/-- How the characters of a string literal are written. -/
inductive BodyOf (may : Char → Prop) : List Char → List Char → Prop
  | nil : BodyOf may [] []
  | cons {c : Char} {s text body : List Char} (h : EscapeOf may c text) (hs : BodyOf may s body) :
      BodyOf may (c :: s) (text ++ body)

theorem bodyOf_escapes {s text : List Char} (h : Escapes (s.flatMap escapeChar) text) :
    BodyOf (fun _ => True) s text := by
  induction s generalizing text with
  | nil =>
      cases h
      exact .nil
  | cons c s ih =>
      rw [List.flatMap_cons] at h
      obtain ⟨first, others, rfl, hfirst, hothers⟩ := h.split
      exact .cons (escapeOf_escapes hfirst) (ih hothers)

theorem scanString_cons {d : Char} (hd : d ≠ '"') {fuel : Nat} {c : Char}
    {tail rest rest' s : List Char} (hchar : scanChar (d :: tail) = some (c, rest))
    (hstring : scanString fuel rest = some (s, rest')) :
    scanString (fuel + 1) (d :: tail) = some (c :: s, rest') := by
  unfold scanString
  split
  · simp_all
  · simp_all
  · simp_all

/-- A string literal reads back, whatever was escaped in it. -/
theorem BodyOf.scanString {may : Char → Prop} {s text : List Char} (h : BodyOf may s text)
    (rest : List Char) {fuel : Nat} (hfuel : text.length < fuel) :
    scanString fuel (text ++ '"' :: rest) = some (s, rest) := by
  induction h generalizing fuel with
  | nil =>
      obtain ⟨fuel, rfl⟩ := Nat.exists_eq_add_one_of_ne_zero (Nat.ne_zero_of_lt hfuel)
      rfl
  | @cons c s first others hfirst _ ih =>
      obtain ⟨fuel, rfl⟩ := Nat.exists_eq_add_one_of_ne_zero (Nat.ne_zero_of_lt hfuel)
      have hchar := hfirst.scanChar (others ++ '"' :: rest)
      obtain ⟨d, tail, rfl, hd⟩ := hfirst.head
      have hlength : others.length < fuel := by
        simp only [List.length_append, List.length_cons] at hfuel
        omega
      rw [List.append_assoc]
      exact scanString_cons hd hchar (ih hlength)

/-! ### Numbers -/

/-- A number as it is read: an integer, or the literal of a float. -/
inductive Number
  | int (i : Int)
  | float (literal : List Char)

/-- The literal of an integer. -/
def intText (i : Int) : List Char :=
  if i < 0 then '-' :: Nat.toDigits 10 i.natAbs else Nat.toDigits 10 i.natAbs

def scanMinus : List Char → List Char × List Char
  | '-' :: rest => (['-'], rest)
  | text => ([], text)

/-- `0|[1-9][0-9]*`. -/
def scanWhole : List Char → Option (List Char × List Char)
  | '0' :: rest => some (['0'], rest)
  | text =>
      if text.takeWhile Char.isDigit = [] then none
      else some (text.takeWhile Char.isDigit, text.dropWhile Char.isDigit)

/-- `(\.[0-9]+)?`. -/
def scanFraction : List Char → List Char × List Char
  | '.' :: rest =>
      if rest.takeWhile Char.isDigit = [] then ([], '.' :: rest)
      else ('.' :: rest.takeWhile Char.isDigit, rest.dropWhile Char.isDigit)
  | text => ([], text)

def scanSign : List Char → List Char × List Char
  | '-' :: rest => (['-'], rest)
  | '+' :: rest => (['+'], rest)
  | text => ([], text)

/-- `([eE][-+]?[0-9]+)?`. -/
def scanExponent : List Char → List Char × List Char
  | [] => ([], [])
  | e :: rest =>
      let sign := scanSign rest
      if (e = 'e' ∨ e = 'E') ∧ sign.2.takeWhile Char.isDigit ≠ [] then
        (e :: sign.1 ++ sign.2.takeWhile Char.isDigit, sign.2.dropWhile Char.isDigit)
      else ([], e :: rest)

/-- The integer with this sign and these digits. -/
def intValue (minus whole : List Char) : Int :=
  if minus = [] then (Nat.ofDigitChars 10 whole 0 : Nat) else -(Nat.ofDigitChars 10 whole 0 : Nat)

/-- A number: an integer, if it has neither a fraction nor an exponent. -/
def scanNumber (text : List Char) : Option (Number × List Char) :=
  let minus := scanMinus text
  match scanWhole minus.2 with
  | none => none
  | some (whole, rest) =>
      let fraction := scanFraction rest
      let exponent := scanExponent fraction.2
      if fraction.1 = [] ∧ exponent.1 = [] then
        some (.int (intValue minus.1 whole), exponent.2)
      else
        some (.float (minus.1 ++ whole ++ fraction.1 ++ exponent.1), exponent.2)

def Digits (ds : List Char) : Prop := ∀ c ∈ ds, c.isDigit = true

def NoDigit (text : List Char) : Prop := ∀ c tail, text = c :: tail → c.isDigit = false

/-- No character that would go on with a number. -/
def Ends (text : List Char) : Prop :=
  ∀ c tail, text = c :: tail → c.isDigit = false ∧ c ≠ '.' ∧ c ≠ 'e' ∧ c ≠ 'E'

theorem Ends.noDigit {text : List Char} (h : Ends text) : NoDigit text :=
  fun c tail heq => (h c tail heq).1

theorem takeWhile_digits {ds rest : List Char} (hds : Digits ds) (hrest : NoDigit rest) :
    (ds ++ rest).takeWhile Char.isDigit = ds ∧ (ds ++ rest).dropWhile Char.isDigit = rest := by
  rw [List.takeWhile_append_of_pos hds, List.dropWhile_append_of_pos hds]
  cases rest with
  | nil => simp
  | cons c rest => simp [hrest c rest rfl]

/-- The whole part of a number literal. -/
inductive Whole : List Char → Prop
  | zero : Whole ['0']
  | digits {c : Char} {ds : List Char} (hc : c ≠ '0') (h : Digits (c :: ds)) : Whole (c :: ds)

inductive Fraction : List Char → Prop
  | none : Fraction []
  | digits {ds : List Char} (hne : ds ≠ []) (h : Digits ds) : Fraction ('.' :: ds)

inductive Exponent : List Char → Prop
  | none : Exponent []
  | digits {sign ds : List Char} (hsign : sign ∈ [[], ['-'], ['+']]) (hne : ds ≠ [])
      (h : Digits ds) : Exponent ('e' :: sign ++ ds)

/-- The literal of a float: it has a fraction or an exponent. -/
def FloatLiteral (literal : List Char) : Prop :=
  ∃ minus whole fraction exponent, literal = minus ++ whole ++ fraction ++ exponent ∧
    minus ∈ [[], ['-']] ∧ Whole whole ∧ Fraction fraction ∧ Exponent exponent ∧
    ¬ (fraction = [] ∧ exponent = [])

theorem ne_of_isDigit {c d : Char} (hc : c.isDigit = true) (hd : d.isDigit = false) : c ≠ d := by
  rintro rfl
  rw [hc] at hd
  cases hd

theorem Whole.head {whole : List Char} (h : Whole whole) :
    ∃ c tail, whole = c :: tail ∧ c.isDigit = true := by
  cases h with
  | zero => exact ⟨'0', [], rfl, rfl⟩
  | digits hc h => exact ⟨_, _, rfl, h _ List.mem_cons_self⟩

theorem scanMinus_append {minus whole : List Char} (hminus : minus ∈ [[], ['-']])
    (hwhole : Whole whole) (rest : List Char) :
    scanMinus (minus ++ (whole ++ rest)) = (minus, whole ++ rest) := by
  simp only [List.mem_cons, List.not_mem_nil, or_false] at hminus
  rcases hminus with rfl | rfl
  · obtain ⟨c, tail, rfl, hc⟩ := hwhole.head
    have hne : c ≠ '-' := ne_of_isDigit hc rfl
    rw [List.nil_append, List.cons_append]
    unfold scanMinus
    split <;> simp_all
  · rfl

theorem scanWhole_append {whole rest : List Char} (hwhole : Whole whole) (hrest : NoDigit rest) :
    scanWhole (whole ++ rest) = some (whole, rest) := by
  cases hwhole with
  | zero => rfl
  | @digits c ds hc h =>
      obtain ⟨htake, hdrop⟩ := takeWhile_digits h hrest
      unfold scanWhole
      split
      · rename_i heq
        exact absurd (List.cons.inj heq).1 hc
      · rw [htake, hdrop, if_neg (List.cons_ne_nil c ds)]

theorem scanFraction_append {fraction rest : List Char} (hfraction : Fraction fraction)
    (hrest : NoDigit rest) (hpoint : ∀ tail, rest ≠ '.' :: tail) :
    scanFraction (fraction ++ rest) = (fraction, rest) := by
  cases hfraction with
  | none =>
      rw [List.nil_append]
      unfold scanFraction
      split
      · rename_i tail
        exact absurd rfl (hpoint tail)
      · rfl
  | digits hne h =>
      obtain ⟨htake, hdrop⟩ := takeWhile_digits h hrest
      rw [List.cons_append, scanFraction, htake, hdrop, if_neg hne]

theorem scanSign_append {sign ds : List Char} (hsign : sign ∈ [[], ['-'], ['+']]) (hne : ds ≠ [])
    (h : Digits ds) (rest : List Char) :
    scanSign (sign ++ (ds ++ rest)) = (sign, ds ++ rest) := by
  simp only [List.mem_cons, List.not_mem_nil, or_false] at hsign
  rcases hsign with rfl | rfl | rfl
  · obtain ⟨c, tail, rfl⟩ := List.exists_cons_of_ne_nil hne
    have hc : c.isDigit = true := h c List.mem_cons_self
    have hminus : c ≠ '-' := ne_of_isDigit hc rfl
    have hplus : c ≠ '+' := ne_of_isDigit hc rfl
    rw [List.nil_append, List.cons_append]
    unfold scanSign
    split <;> simp_all
  · rfl
  · rfl

theorem scanExponent_append {exponent rest : List Char} (hexponent : Exponent exponent)
    (hrest : Ends rest) : scanExponent (exponent ++ rest) = (exponent, rest) := by
  cases hexponent with
  | none =>
      cases rest with
      | nil => rfl
      | cons c rest =>
          obtain ⟨-, -, he, hE⟩ := hrest c rest rfl
          rw [List.nil_append, scanExponent]
          exact if_neg fun h => h.1.elim he hE
  | @digits sign ds hsign hne h =>
      obtain ⟨htake, hdrop⟩ := takeWhile_digits h hrest.noDigit
      have hsignscan := scanSign_append hsign hne h rest
      rw [← List.append_assoc] at hsignscan
      rw [List.cons_append, List.cons_append, scanExponent]
      simp only [hsignscan, htake, hdrop, true_or, true_and, ne_eq, hne, not_false_eq_true,
        if_true, List.cons_append]

/-- A number literal is read to its end. -/
theorem scanNumber_append {minus whole fraction exponent rest : List Char}
    (hminus : minus ∈ [[], ['-']]) (hwhole : Whole whole) (hfraction : Fraction fraction)
    (hexponent : Exponent exponent) (hrest : Ends rest) :
    scanNumber (minus ++ (whole ++ (fraction ++ (exponent ++ rest)))) =
      if fraction = [] ∧ exponent = [] then
        some (.int (intValue minus whole), rest)
      else some (.float (minus ++ whole ++ fraction ++ exponent), rest) := by
  have hexponenthead : ∀ c tail, exponent ++ rest = c :: tail → c.isDigit = false ∧ c ≠ '.' := by
    intro c tail heq
    cases hexponent with
    | none => exact ⟨(hrest c tail heq).1, (hrest c tail heq).2.1⟩
    | digits hsign hne h =>
        rw [List.cons_append, List.cons_append, List.cons.injEq] at heq
        rw [← heq.1]
        exact ⟨rfl, by decide⟩
  have hfractionhead : NoDigit (fraction ++ (exponent ++ rest)) := by
    intro c tail heq
    cases hfraction with
    | none => exact (hexponenthead c tail heq).1
    | digits hne h =>
        rw [List.cons_append, List.cons.injEq] at heq
        rw [← heq.1]
        rfl
  have hfractionscan := scanFraction_append hfraction
    (fun c tail heq => (hexponenthead c tail heq).1)
    (fun tail heq => (hexponenthead '.' tail heq).2 rfl)
  simp only [scanNumber, scanMinus_append hminus hwhole, scanWhole_append hwhole hfractionhead,
    hfractionscan, scanExponent_append hexponent hrest]

theorem scanNumber_floatLiteral {literal rest : List Char} (h : FloatLiteral literal)
    (hrest : Ends rest) : scanNumber (literal ++ rest) = some (.float literal, rest) := by
  obtain ⟨minus, whole, fraction, exponent, rfl, hminus, hwhole, hfraction, hexponent, hfloat⟩ := h
  have hscan := scanNumber_append hminus hwhole hfraction hexponent hrest
  rw [if_neg hfloat] at hscan
  rw [← hscan]
  simp only [List.append_assoc]

theorem whole_toDigits (n : Nat) : Whole (Nat.toDigits 10 n) := by
  have hdigits : Digits (Nat.toDigits 10 n) := fun c hc =>
    Nat.isDigit_of_mem_toDigits (by omega) (by omega) hc
  suffices hhead : Nat.toDigits 10 n = ['0'] ∨
      ∃ c ds, Nat.toDigits 10 n = c :: ds ∧ c ≠ '0' by
    rcases hhead with hzero | ⟨c, ds, heq, hc⟩
    · rw [hzero]
      exact .zero
    · rw [heq] at hdigits ⊢
      exact .digits hc hdigits
  by_cases hn : n = 0
  · rw [hn]
    exact Or.inl rfl
  · apply Or.inr
    clear hdigits
    induction n using Nat.strongRecOn with
    | ind n ih =>
        by_cases hlt : n < 10
        · refine ⟨n.digitChar, [], Nat.toDigits_of_lt_base hlt, ?_⟩
          have hall : ∀ m : Fin 10, (m : Nat) ≠ 0 → (m : Nat).digitChar ≠ '0' := by decide
          exact hall ⟨n, hlt⟩ hn
        · obtain ⟨c, ds, heq, hc⟩ := ih (n / 10) (by omega) (by omega)
          rw [Nat.toDigits_of_base_le (by omega) (by omega), heq]
          exact ⟨c, _, rfl, hc⟩

theorem scanNumber_intText (i : Int) {rest : List Char} (hrest : Ends rest) :
    scanNumber (intText i ++ rest) = some (.int i, rest) := by
  have hscan : ∀ minus ∈ [[], ['-']], scanNumber (minus ++ (Nat.toDigits 10 i.natAbs ++ rest)) =
      some (.int (intValue minus (Nat.toDigits 10 i.natAbs)), rest) := by
    intro minus hminus
    have h := scanNumber_append hminus (whole_toDigits i.natAbs) .none .none hrest
    simpa using h
  rw [intText]
  split_ifs with hneg
  · have hvalue : intValue ['-'] (Nat.toDigits 10 i.natAbs) = i := by
      rw [intValue, if_neg (List.cons_ne_nil _ _), Nat.ofDigitChars_ten_toDigits]
      omega
    rw [List.cons_append]
    exact (hscan ['-'] (by simp)).trans (by rw [hvalue])
  · have hvalue : intValue [] (Nat.toDigits 10 i.natAbs) = i := by
      rw [intValue, if_pos rfl, Nat.ofDigitChars_ten_toDigits]
      omega
    exact (hscan [] (by simp)).trans (by rw [hvalue])

end JsonText

end Cositos
