/-
Logs of sessions: an opening letter, inner letters, a closing letter, and so on.
A log is read from left to right; whether its last session is still open is part
of the reading.
-/
import Mathlib.Computability.Language

namespace Cositos

namespace Session

open Computability

universe u

variable {α : Type u} {opening inner closing : α}

/-- The words of `(opening inner* closing)*`. -/
def words (opening inner closing : α) : Language α :=
  (({[opening]} : Language α) * ({[inner]} : Language α)∗ * ({[closing]} : Language α))∗

/-- A log of sessions, with `true` while the last one is open. -/
inductive Log (opening inner closing : α) : List α → Bool → Prop
  | nil : Log opening inner closing [] false
  | opens {log : List α} (h : Log opening inner closing log false) :
      Log opening inner closing (log ++ [opening]) true
  | passes {log : List α} (h : Log opening inner closing log true) :
      Log opening inner closing (log ++ [inner]) true
  | closes {log : List α} (h : Log opening inner closing log true) :
      Log opening inner closing (log ++ [closing]) false

theorem mem_kstar_append {l : Language α} {u w : List α} (hu : u ∈ l∗) (hw : w ∈ l) :
    u ++ w ∈ l∗ := by
  obtain ⟨parts, rfl, hparts⟩ := Language.mem_kstar.mp hu
  refine Language.mem_kstar.mpr ⟨parts ++ [w], by simp, fun part hpart => ?_⟩
  rcases List.mem_append.mp hpart with h | h
  · exact hparts part h
  · rwa [List.mem_singleton.mp h]

/-- A closed log is a word; an open one is a word and the start of a session. -/
theorem Log.split {log : List α} {isOpen : Bool} (h : Log opening inner closing log isOpen) :
    if isOpen then
      ∃ front ∈ words opening inner closing, ∃ back ∈ ({[inner]} : Language α)∗,
        log = front ++ ([opening] ++ back)
    else log ∈ words opening inner closing := by
  induction h with
  | nil => exact Language.nil_mem_kstar _
  | @opens log _ ih => exact ⟨log, ih, [], Language.nil_mem_kstar _, by simp⟩
  | passes _ ih =>
      obtain ⟨front, hfront, back, hback, rfl⟩ := ih
      exact ⟨front, hfront, back ++ [inner], mem_kstar_append hback (Set.mem_singleton _),
        by simp⟩
  | closes _ ih =>
      obtain ⟨front, hfront, back, hback, rfl⟩ := ih
      have hsession : [opening] ++ back ++ [closing] ∈
          ({[opening]} : Language α) * ({[inner]} : Language α)∗ * ({[closing]} : Language α) :=
        Language.append_mem_mul
          (Language.append_mem_mul (Set.mem_singleton _) hback) (Set.mem_singleton _)
      simpa [words, List.append_assoc] using mem_kstar_append hfront hsession

/-- Every log can be completed to a word. -/
theorem Log.prefix_word {log : List α} {isOpen : Bool}
    (h : Log opening inner closing log isOpen) :
    ∃ word ∈ words opening inner closing, log <+: word := by
  cases isOpen with
  | false => exact ⟨log, h.split, List.prefix_refl log⟩
  | true => exact ⟨log ++ [closing], h.closes.split, List.prefix_append log [closing]⟩

/-- An open log has one opening more than closings, a closed one equally many. -/
theorem Log.count [DecidableEq α] (hclosing : opening ≠ closing) (hopening : inner ≠ opening)
    (hinner : inner ≠ closing) {log : List α} {isOpen : Bool}
    (h : Log opening inner closing log isOpen) :
    log.count opening = log.count closing + isOpen.toNat := by
  induction h with
  | nil => rfl
  | opens _ ih => simp [List.count_append, ih, hclosing]
  | passes _ ih => simpa [List.count_append, hopening, hinner] using ih
  | closes _ ih => simp [List.count_append, ih, hclosing.symm]

theorem Log.opening_mem_of_open {log : List α} (h : Log opening inner closing log true) :
    opening ∈ log := by
  obtain ⟨front, _, back, _, rfl⟩ := h.split
  simp

/-- What is in front of an inner letter is an open log. -/
theorem Log.front_of_inner (hopening : inner ≠ opening) (hclosing : inner ≠ closing)
    {log : List α} {isOpen : Bool} (h : Log opening inner closing log isOpen)
    {front : List α} (hlog : front ++ [inner] <+: log) :
    Log opening inner closing front true := by
  induction h with
  | nil => simp at hlog
  | opens _ ih =>
      rcases List.prefix_concat_iff.mp hlog with heq | hpre
      · exact absurd (List.append_inj_right' heq rfl) (by simpa using hopening)
      · exact ih hpre
  | closes _ ih =>
      rcases List.prefix_concat_iff.mp hlog with heq | hpre
      · exact absurd (List.append_inj_right' heq rfl) (by simpa using hclosing)
      · exact ih hpre
  | passes hopen ih =>
      rcases List.prefix_concat_iff.mp hlog with heq | hpre
      · rw [List.append_inj_left' heq rfl]
        exact hopen
      · exact ih hpre

/-- An inner letter comes after an opening one. -/
theorem Log.opening_before_inner (hopening : inner ≠ opening) (hclosing : inner ≠ closing)
    {log : List α} {isOpen : Bool} (h : Log opening inner closing log isOpen)
    {front : List α} (hlog : front ++ [inner] <+: log) : opening ∈ front :=
  (h.front_of_inner hopening hclosing hlog).opening_mem_of_open

/-- In an open log the last opening letter has no closing one after it. -/
theorem Log.session_of_open (hinner : inner ≠ closing) {log : List α} {isOpen : Bool}
    (h : Log opening inner closing log isOpen) (hopen : isOpen = true) :
    ∃ before between, log = before ++ opening :: between ∧ closing ∉ between := by
  induction h with
  | nil => cases hopen
  | @opens log _ _ => exact ⟨log, [], rfl, by simp⟩
  | passes _ ih =>
      obtain ⟨before, between, rfl, hno⟩ := ih rfl
      refine ⟨before, between ++ [inner], by simp, ?_⟩
      simp [hno, hinner.symm]
  | closes _ _ => cases hopen

/-- An inner letter belongs to a session that was opened and not closed yet. -/
theorem Log.session_of_inner (hopening : inner ≠ opening) (hclosing : inner ≠ closing)
    {log : List α} {isOpen : Bool} (h : Log opening inner closing log isOpen)
    {front : List α} (hlog : front ++ [inner] <+: log) :
    ∃ before between, front = before ++ opening :: between ∧ closing ∉ between :=
  (h.front_of_inner hopening hclosing hlog).session_of_open hclosing rfl

end Session

end Cositos
