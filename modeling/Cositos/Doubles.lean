/-
Integers as doubles: the double nearest to an integer, the integers that are doubles, and
the shortest digits that denote one.
-/
import Mathlib.Algebra.Group.Nat.Defs
import Mathlib.Algebra.Order.Group.Unbundled.Int
import Mathlib.Data.List.Basic

namespace Cositos

/-! ### Rounding -/

/-- A double has 53 bits: the distance between the doubles around `n`. -/
def doubleUnit (n : Nat) : Nat := 2 ^ (n.log2 - 52)

/-- The double nearest to `n`, the one with an even significand between two. -/
def nearestDouble (n : Nat) : Nat :=
  let below := n / doubleUnit n * doubleUnit n
  if 2 * (n - below) < doubleUnit n ∨
      (2 * (n - below) = doubleUnit n ∧ n / doubleUnit n % 2 = 0) then below
  else below + doubleUnit n

/-- The number that an integer literal of JavaScript denotes; `none` for infinity. -/
def toNumber (i : Int) : Option Int :=
  let nearest := nearestDouble i.natAbs
  if nearest.log2 < 1024 then some (if i < 0 then -nearest else nearest) else none

/-- The integer is a double. -/
def IsDouble (i : Int) : Prop :=
  i.natAbs % 2 ^ (i.natAbs.log2 - 52) = 0 ∧ i.natAbs.log2 < 1024

theorem doubleUnit_pos (n : Nat) : 0 < doubleUnit n := Nat.two_pow_pos _

theorem nearestDouble_eq_self_iff {n : Nat} : nearestDouble n = n ↔ n % doubleUnit n = 0 := by
  have hunit := doubleUnit_pos n
  simp only [nearestDouble]
  generalize doubleUnit n = unit at hunit
  have hsplit := Nat.div_add_mod' n unit
  have hrest := Nat.mod_lt n hunit
  generalize n / unit = significand at hsplit ⊢
  generalize significand * unit = below at hsplit ⊢
  generalize n % unit = rest at hsplit hrest ⊢
  split_ifs <;> omega

/-- Rounding ends at the multiple of the unit below or at the one above. -/
theorem nearestDouble_eq (n : Nat) : nearestDouble n = n / doubleUnit n * doubleUnit n ∨
    nearestDouble n = (n / doubleUnit n + 1) * doubleUnit n := by
  rw [nearestDouble, Nat.add_mul, Nat.one_mul]
  split_ifs
  · exact Or.inl rfl
  · exact Or.inr rfl

theorem toNumber_eq_self_iff {i : Int} : toNumber i = some i ↔ IsDouble i := by
  rw [IsDouble, ← doubleUnit, ← nearestDouble_eq_self_iff, toNumber]
  generalize nearestDouble i.natAbs = nearest
  have hsigned : (if i < 0 then -(nearest : Int) else nearest) = i ↔ nearest = i.natAbs := by
    split_ifs <;> omega
  by_cases hlog : nearest.log2 < 1024
  · rw [if_pos hlog, Option.some.injEq, hsigned]
    constructor
    · rintro rfl
      exact ⟨rfl, hlog⟩
    · exact And.left
  · rw [if_neg hlog]
    constructor
    · intro h
      cases h
    · rintro ⟨rfl, hlow⟩
      exact absurd hlow hlog

theorem log2_lt_of_lt {n : Nat} (h : n < 2 ^ 53) : n.log2 < 53 := by
  by_cases hzero : n = 0
  · rw [hzero]
    decide
  · exact (Nat.log2_lt hzero).mpr h

/-- Every integer of at most 53 bits is a double. -/
theorem isDouble_of_lt {i : Int} (h : i.natAbs < 2 ^ 53) : IsDouble i := by
  have hlog := log2_lt_of_lt h
  refine ⟨?_, by omega⟩
  rw [Nat.sub_eq_zero_of_le (by omega), Nat.pow_zero, Nat.mod_one]

example : toNumber 9007199254740993 = some 9007199254740992 := by decide

/-- A number of 53 bits followed by zeros is a multiple of the unit around it. -/
theorem mod_doubleUnit_eq_zero {m : Nat} (hlow : 2 ^ 52 ≤ m) (hhigh : m ≤ 2 ^ 53) (k : Nat) :
    m * 2 ^ k % doubleUnit (m * 2 ^ k) = 0 := by
  have hk : 0 < 2 ^ k := Nat.two_pow_pos k
  have hne : m * 2 ^ k ≠ 0 := Nat.mul_ne_zero (by omega) (by omega)
  rcases Nat.lt_or_eq_of_le hhigh with hlt | rfl
  · have hlog : (m * 2 ^ k).log2 = 52 + k := by
      rw [Nat.log2_eq_iff hne, Nat.pow_add, Nat.add_right_comm, Nat.pow_add _ (52 + 1)]
      exact ⟨Nat.mul_le_mul_right _ hlow, Nat.mul_lt_mul_of_pos_right hlt hk⟩
    rw [doubleUnit, hlog, Nat.add_sub_cancel_left]
    exact Nat.mul_mod_left m (2 ^ k)
  · rw [doubleUnit, ← Nat.pow_add, Nat.log2_two_pow]
    exact Nat.mod_eq_zero_of_dvd (Nat.pow_dvd_pow 2 (by omega))

/-- Above 53 bits the multiple of the unit has 53 bits. -/
theorem significand_bounds {n : Nat} (hlog : 53 ≤ n.log2) :
    2 ^ 52 ≤ n / doubleUnit n ∧ n / doubleUnit n < 2 ^ 53 := by
  have hne : n ≠ 0 := by
    rintro rfl
    exact absurd hlog (by decide)
  have hpow : 2 ^ 52 * doubleUnit n = 2 ^ n.log2 := by
    rw [doubleUnit, ← Nat.pow_add]
    congr 1
    omega
  rw [Nat.le_div_iff_mul_le (doubleUnit_pos n), Nat.div_lt_iff_lt_mul (doubleUnit_pos n),
    Nat.pow_succ' (n := 52), Nat.mul_assoc, hpow, ← Nat.pow_succ']
  exact ⟨Nat.log2_self_le hne, Nat.lt_log2_self⟩

/-- Rounding does not take a number of more than 53 bits below `2 ^ 53`. -/
theorem le_nearestDouble {n : Nat} (h : 2 ^ 53 ≤ n) : 2 ^ 53 ≤ nearestDouble n := by
  have hlog : 53 ≤ n.log2 := (Nat.le_log2 (by omega)).mpr h
  have hunit : 2 ≤ doubleUnit n := by
    rw [doubleUnit, ← Nat.pow_one 2, ← Nat.pow_mul]
    exact Nat.pow_le_pow_right (by decide) (by omega)
  obtain ⟨hlow, -⟩ := significand_bounds hlog
  rcases nearestDouble_eq n with heq | heq <;> rw [heq]
  · exact Nat.mul_le_mul hlow hunit
  · exact Nat.mul_le_mul (hlow.trans (Nat.le_succ _)) hunit

theorem nearestDouble_nearestDouble (n : Nat) :
    nearestDouble (nearestDouble n) = nearestDouble n := by
  by_cases hsmall : n.log2 < 53
  · have hunit : doubleUnit n = 1 := by
      rw [doubleUnit, Nat.sub_eq_zero_of_le (by omega), Nat.pow_zero]
    have hself : nearestDouble n = n := nearestDouble_eq_self_iff.mpr (by rw [hunit, Nat.mod_one])
    rw [hself, hself]
  · obtain ⟨hlow, hhigh⟩ := significand_bounds (Nat.le_of_not_lt hsmall)
    rw [nearestDouble_eq_self_iff]
    rcases nearestDouble_eq n with heq | heq <;> rw [heq]
    · exact mod_doubleUnit_eq_zero hlow hhigh.le _
    · exact mod_doubleUnit_eq_zero (hlow.trans (Nat.le_succ _)) hhigh _

/-- What an integer is rounded to is a double. -/
theorem isDouble_of_toNumber {i j : Int} (h : toNumber i = some j) : IsDouble j := by
  rw [← toNumber_eq_self_iff]
  have hidem := nearestDouble_nearestDouble i.natAbs
  rw [toNumber] at h
  by_cases hlog : (nearestDouble i.natAbs).log2 < 1024
  · rw [if_pos hlog] at h
    cases h
    have habs : (if i < 0 then -(nearestDouble i.natAbs : Int)
        else nearestDouble i.natAbs).natAbs = nearestDouble i.natAbs := by
      split_ifs <;> omega
    rw [toNumber, habs, hidem, if_pos hlog]
    congr 1
    split_ifs <;> omega
  · rw [if_neg hlog] at h
    cases h

/-! ### Digits -/

/-- The shortest digits that denote a double, followed by at most so many zeros: of the two
multiples next to it the nearer one that is read as the double. -/
def shortestFrom (n : Nat) : Nat → Nat
  | 0 => n
  | zeros + 1 =>
      let below := n / 10 ^ (zeros + 1) * 10 ^ (zeros + 1)
      let above := below + 10 ^ (zeros + 1)
      let candidates := if n - below ≤ above - n then [below, above] else [above, below]
      match candidates.find? fun c : Nat => toNumber c = some (n : Int) with
      | some c => c
      | none => shortestFrom n zeros

/-- The integer that the digits of `String(i)` spell in JavaScript, for a double `i`.  From
`10 ^ 21` on they are spelled with an exponent, which is read as the double. -/
def spelled (i : Int) : Int :=
  if 10 ^ 21 ≤ i.natAbs then i
  else if i < 0 then -(shortestFrom i.natAbs 21 : Nat) else (shortestFrom i.natAbs 21 : Nat)

/-- A double whose digits JavaScript spells in full. -/
def Exact (i : Int) : Prop := IsDouble i ∧ spelled i = i

example : spelled (2 ^ 60) = 1152921504606847000 := by decide +kernel

theorem toNumber_neg (i : Int) : toNumber (-i) = (toNumber i).map Neg.neg := by
  by_cases hzero : i = 0
  · rw [hzero]
    decide
  · simp only [toNumber, Int.natAbs_neg]
    split_ifs <;> first | rfl | omega | simp

theorem shortestFrom_eq (n zeros : Nat) :
    shortestFrom n zeros = n ∨ toNumber (shortestFrom n zeros : Nat) = some (n : Int) := by
  induction zeros with
  | zero => exact Or.inl rfl
  | succ zeros ih =>
      rw [shortestFrom]
      split
      · rename_i c hfind
        exact Or.inr (by simpa using List.find?_some hfind)
      · exact ih

/-- The digits are read as the number that was to be spelled. -/
theorem toNumber_spelled (i : Int) : toNumber (spelled i) = toNumber i := by
  have hshortest : toNumber (shortestFrom i.natAbs 21 : Nat) = toNumber (i.natAbs : Int) := by
    rcases shortestFrom_eq i.natAbs 21 with heq | heq
    · rw [heq]
    · rw [heq, toNumber_eq_self_iff.mpr (isDouble_of_toNumber heq)]
  rw [spelled]
  split_ifs with hlarge hsign
  · rfl
  · rw [toNumber_neg, hshortest, ← toNumber_neg]
    congr 1
    omega
  · rw [hshortest]
    congr 1
    omega

/-- Every integer of at most 53 bits is spelled in full. -/
theorem exact_of_lt {i : Int} (h : i.natAbs < 2 ^ 53) : Exact i := by
  have hshortest : shortestFrom i.natAbs 21 = i.natAbs := by
    rcases shortestFrom_eq i.natAbs 21 with heq | heq
    · exact heq
    · generalize shortestFrom i.natAbs 21 = c at heq
      by_cases hc : c < 2 ^ 53
      · have hdouble : IsDouble (c : Int) := isDouble_of_lt (by rwa [Int.natAbs_natCast])
        rw [toNumber_eq_self_iff.mpr hdouble, Option.some.injEq] at heq
        omega
      · have hlarge := le_nearestDouble (Nat.le_of_not_lt hc)
        rw [toNumber, Int.natAbs_natCast] at heq
        split_ifs at heq
        all_goals
          have hsame := Option.some.inj heq
          omega
  refine ⟨isDouble_of_lt h, ?_⟩
  rw [spelled, hshortest]
  split_ifs <;> omega

end Cositos
