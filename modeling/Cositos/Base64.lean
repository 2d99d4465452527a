/-
Base64 with the standard alphabet: three bytes to four characters, padded with
`=`, and the lenient decoder that skips characters outside the alphabet.
-/

namespace Cositos

namespace Base64

/-- The character for six bits. -/
def digit (n : Nat) : Char :=
  if n < 26 then Char.ofNat (n + 65)
  else if n < 52 then Char.ofNat (n + 71)
  else if n < 62 then Char.ofNat (n - 4)
  else if n = 62 then '+'
  else '/'

/-- The six bits of a character of the alphabet. -/
def value? (c : Char) : Option Nat :=
  let n := c.toNat
  if 65 ≤ n ∧ n ≤ 90 then some (n - 65)
  else if 97 ≤ n ∧ n ≤ 122 then some (n - 71)
  else if 48 ≤ n ∧ n ≤ 57 then some (n + 4)
  else if c = '+' then some 62
  else if c = '/' then some 63
  else none

theorem value?_digit {n : Nat} (hn : n < 64) : value? (digit n) = some n := by
  have hall : ∀ m : Fin 64, value? (digit m) = some m.val := by decide
  exact hall ⟨n, hn⟩

theorem digit_ne_pad {n : Nat} (hn : n < 64) : digit n ≠ '=' := by
  have hall : ∀ m : Fin 64, digit m ≠ '=' := by decide
  exact hall ⟨n, hn⟩

/-- Bytes to characters, a group of three at a time. -/
def encode : List UInt8 → List Char
  | [] => []
  | [a] => [digit (a.toNat / 4), digit (a.toNat % 4 * 16), '=', '=']
  | [a, b] =>
      [digit (a.toNat / 4), digit (a.toNat % 4 * 16 + b.toNat / 16),
        digit (b.toNat % 16 * 4), '=']
  | a :: b :: c :: bytes =>
      digit (a.toNat / 4) :: digit (a.toNat % 4 * 16 + b.toNat / 16) ::
        digit (b.toNat % 16 * 4 + c.toNat / 64) :: digit (c.toNat % 64) :: encode bytes

/-- Characters to bytes.  `quad` counts the digits of the current group, `left`
holds the bits not yet given out and `pads` the padding seen in the group;
`none` where the input ends inside a group. -/
def decodeFrom (quad left pads : Nat) : List Char → Option (List UInt8)
  | [] => if quad = 0 then some [] else none
  | c :: chars =>
      if c = '=' then
        if 2 ≤ quad then
          if 4 ≤ quad + (pads + 1) then some [] else decodeFrom quad left (pads + 1) chars
        else
          decodeFrom quad left pads chars
      else
        match value? c with
        | none => decodeFrom quad left pads chars
        | some v =>
            if quad = 0 then decodeFrom 1 v 0 chars
            else if quad = 1 then
              (decodeFrom 2 (v % 16) 0 chars).map (UInt8.ofNat (left * 4 + v / 16) :: ·)
            else if quad = 2 then
              (decodeFrom 3 (v % 4) 0 chars).map (UInt8.ofNat (left * 16 + v / 4) :: ·)
            else
              (decodeFrom 0 0 0 chars).map (UInt8.ofNat (left * 64 + v) :: ·)

def decode (chars : List Char) : Option (List UInt8) := decodeFrom 0 0 0 chars

section Digits

variable {v : Nat} (hv : v < 64) (left pads : Nat) (chars : List Char)

include hv

theorem decodeFrom_digit (quad : Nat) :
    decodeFrom quad left pads (digit v :: chars) =
      if quad = 0 then decodeFrom 1 v 0 chars
      else if quad = 1 then
        (decodeFrom 2 (v % 16) 0 chars).map (UInt8.ofNat (left * 4 + v / 16) :: ·)
      else if quad = 2 then
        (decodeFrom 3 (v % 4) 0 chars).map (UInt8.ofNat (left * 16 + v / 4) :: ·)
      else
        (decodeFrom 0 0 0 chars).map (UInt8.ofNat (left * 64 + v) :: ·) := by
  rw [decodeFrom, if_neg (digit_ne_pad hv), value?_digit hv]

theorem decodeFrom_first :
    decodeFrom 0 left pads (digit v :: chars) = decodeFrom 1 v 0 chars := by
  rw [decodeFrom_digit hv, if_pos rfl]

theorem decodeFrom_second :
    decodeFrom 1 left pads (digit v :: chars) =
      (decodeFrom 2 (v % 16) 0 chars).map (UInt8.ofNat (left * 4 + v / 16) :: ·) := by
  rw [decodeFrom_digit hv, if_neg (by decide), if_pos rfl]

theorem decodeFrom_third :
    decodeFrom 2 left pads (digit v :: chars) =
      (decodeFrom 3 (v % 4) 0 chars).map (UInt8.ofNat (left * 16 + v / 4) :: ·) := by
  rw [decodeFrom_digit hv, if_neg (by decide), if_neg (by decide), if_pos rfl]

theorem decodeFrom_fourth :
    decodeFrom 3 left pads (digit v :: chars) =
      (decodeFrom 0 0 0 chars).map (UInt8.ofNat (left * 64 + v) :: ·) := by
  rw [decodeFrom_digit hv, if_neg (by decide), if_neg (by decide), if_neg (by decide)]

end Digits

theorem ofNat_eq {n : Nat} {a : UInt8} (h : n = a.toNat) : UInt8.ofNat n = a := by
  rw [h, UInt8.ofNat_toNat]

/-- Decoding gives the encoded bytes back. -/
theorem decode_encode (bytes : List UInt8) : decode (encode bytes) = some bytes := by
  unfold decode
  induction bytes using encode.induct with
  | case1 => rfl
  | case2 a =>
      have ha := a.toNat_lt
      rw [encode, decodeFrom_first (by omega), decodeFrom_second (by omega),
        @ofNat_eq _ a (by omega)]
      rfl
  | case3 a b =>
      have ha := a.toNat_lt
      have hb := b.toNat_lt
      rw [encode, decodeFrom_first (by omega), decodeFrom_second (by omega),
        decodeFrom_third (by omega), @ofNat_eq _ a (by omega), @ofNat_eq _ b (by omega)]
      rfl
  | case4 a b c bytes ih =>
      have ha := a.toNat_lt
      have hb := b.toNat_lt
      have hc := c.toNat_lt
      rw [encode, decodeFrom_first (by omega), decodeFrom_second (by omega),
        decodeFrom_third (by omega), decodeFrom_fourth (by omega), ih,
        @ofNat_eq _ a (by omega), @ofNat_eq _ b (by omega), @ofNat_eq _ c (by omega)]
      rfl

/-- The characters are digits and padding. -/
theorem forall_mem_encode {P : Char → Prop} (hpad : P '=') (hdigit : ∀ n, n < 64 → P (digit n))
    (bytes : List UInt8) : ∀ c ∈ encode bytes, P c := by
  induction bytes using encode.induct with
  | case1 => exact fun _ hmem => absurd hmem List.not_mem_nil
  | case2 a =>
      have ha := a.toNat_lt
      simp only [encode, List.forall_mem_cons]
      exact ⟨hdigit _ (by omega), hdigit _ (by omega), hpad, hpad,
        fun _ hmem => absurd hmem List.not_mem_nil⟩
  | case3 a b =>
      have ha := a.toNat_lt
      have hb := b.toNat_lt
      simp only [encode, List.forall_mem_cons]
      exact ⟨hdigit _ (by omega), hdigit _ (by omega), hdigit _ (by omega), hpad,
        fun _ hmem => absurd hmem List.not_mem_nil⟩
  | case4 a b c bytes ih =>
      have ha := a.toNat_lt
      have hb := b.toNat_lt
      have hc := c.toNat_lt
      simp only [encode, List.forall_mem_cons]
      exact ⟨hdigit _ (by omega), hdigit _ (by omega), hdigit _ (by omega), hdigit _ (by omega),
        ih⟩

theorem encode_ascii (bytes : List UInt8) : ∀ c ∈ encode bytes, c.toNat < 128 := by
  refine forall_mem_encode (by decide) (fun n hn => ?_) bytes
  have hall : ∀ m : Fin 64, (digit m).toNat < 128 := by decide
  exact hall ⟨n, hn⟩

theorem lt_not_mem_encode (bytes : List UInt8) : '<' ∉ encode bytes := by
  have hne : ∀ c ∈ encode bytes, c ≠ '<' := by
    refine forall_mem_encode (by decide) (fun n hn => ?_) bytes
    have hall : ∀ m : Fin 64, digit m ≠ '<' := by decide
    exact hall ⟨n, hn⟩
  exact fun hmem => hne '<' hmem rfl

end Base64

end Cositos
