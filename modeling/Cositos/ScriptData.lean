/-
The content of a script element as an HTML tokenizer reads it: script data, its escaped
states, and the end tag.  Which sequences of a text bring either about can be read off the
text.
-/
import Mathlib.Data.List.Basic

namespace Cositos

namespace ScriptData

/-! ### The tokenizer -/

/-- Where the tokenizer is inside of a script element; a name is what it has read of one, in
lower case. -/
inductive State
  | data
  | lessThan
  | endTagOpen
  | endTagName (name : List Char)
  | escapeStart
  | escapeStartDash
  | escaped
  | escapedDash
  | escapedDashDash
  | escapedLessThan
  | escapedEndTagOpen
  | escapedEndTagName (name : List Char)
  | doubleEscapeStart (name : List Char)
  | doubleEscaped
  | doubleEscapedDash
  | doubleEscapedDashDash
  | doubleEscapedLessThan
  | doubleEscapeEnd (name : List Char)
  /-- After the name of the end tag. -/
  | ended
deriving DecidableEq

/-- The name of the element. -/
def script : List Char := ['s', 'c', 'r', 'i', 'p', 't']

/-- A tab, a line feed, a form feed, a space, `/` or `>`: what ends the name of a tag. -/
def endsName (c : Char) : Bool :=
  c = '\t' || c = '\n' || c.toNat = 12 || c = ' ' || c = '/' || c = '>'

/-- A character of script data. -/
def inData (c : Char) : State := if c = '<' then .lessThan else .data

/-- A character of escaped script data. -/
def inEscaped (c : Char) : State :=
  if c = '<' then .escapedLessThan else if c = '-' then .escapedDash else .escaped

/-- A character of double escaped script data. -/
def inDoubleEscaped (c : Char) : State :=
  if c = '<' then .doubleEscapedLessThan
  else if c = '-' then .doubleEscapedDash
  else .doubleEscaped

/-- One character. -/
def step : State → Char → State
  | .data, c => inData c
  | .lessThan, c =>
      if c = '/' then .endTagOpen else if c = '!' then .escapeStart else inData c
  | .endTagOpen, c => if c.isAlpha then .endTagName [c.toLower] else inData c
  | .endTagName name, c =>
      if endsName c ∧ name = script then .ended
      else if c.isAlpha then .endTagName (name ++ [c.toLower])
      else inData c
  | .escapeStart, c => if c = '-' then .escapeStartDash else inData c
  | .escapeStartDash, c => if c = '-' then .escapedDashDash else inData c
  | .escaped, c => inEscaped c
  | .escapedDash, c => if c = '-' then .escapedDashDash else inEscaped c
  | .escapedDashDash, c =>
      if c = '-' then .escapedDashDash else if c = '>' then .data else inEscaped c
  | .escapedLessThan, c =>
      if c = '/' then .escapedEndTagOpen
      else if c.isAlpha then .doubleEscapeStart [c.toLower]
      else inEscaped c
  | .escapedEndTagOpen, c => if c.isAlpha then .escapedEndTagName [c.toLower] else inEscaped c
  | .escapedEndTagName name, c =>
      if endsName c ∧ name = script then .ended
      else if c.isAlpha then .escapedEndTagName (name ++ [c.toLower])
      else inEscaped c
  | .doubleEscapeStart name, c =>
      if endsName c then if name = script then .doubleEscaped else .escaped
      else if c.isAlpha then .doubleEscapeStart (name ++ [c.toLower])
      else inEscaped c
  | .doubleEscaped, c => inDoubleEscaped c
  | .doubleEscapedDash, c => if c = '-' then .doubleEscapedDashDash else inDoubleEscaped c
  | .doubleEscapedDashDash, c =>
      if c = '-' then .doubleEscapedDashDash else if c = '>' then .data else inDoubleEscaped c
  | .doubleEscapedLessThan, c => if c = '/' then .doubleEscapeEnd [] else inDoubleEscaped c
  | .doubleEscapeEnd name, c =>
      if endsName c then if name = script then .escaped else .doubleEscaped
      else if c.isAlpha then .doubleEscapeEnd (name ++ [c.toLower])
      else inDoubleEscaped c
  | .ended, _ => .ended

/-- The states that are not escaped, before the end. -/
def State.isPlain : State → Bool
  | .data | .lessThan | .endTagOpen | .endTagName _ | .escapeStart | .escapeStartDash => true
  | _ => false

def State.isEscaped (state : State) : Bool := !state.isPlain && state ≠ .ended

/-- A script element: its content, whether an escaped state was entered, and what follows the
name of its end tag. -/
structure Element where
  content : List Char
  escaped : Bool
  rest : List Char
deriving DecidableEq

/-- The element that goes on from here; `read` is its content so far. -/
def scan (state : State) (escaped : Bool) (read : List Char) : List Char → Option Element
  | [] => none
  | c :: text =>
      let next := step state c
      -- what was read ends in `</script`
      if next = .ended then some { content := read.take (read.length - 8), escaped, rest := text }
      else scan next (escaped || next.isEscaped) (read ++ [c]) text

def openTag : List Char := '<' :: script ++ ['>']

def closeTag : List Char := '<' :: '/' :: script ++ ['>']

/-- The first script element of a page, whose tag has no attributes. -/
def inlineScript : List Char → Option Element
  | [] => none
  | c :: page =>
      if openTag.isPrefixOf (c :: page) then
        scan .data false [] ((c :: page).drop openTag.length)
      else inlineScript page

/-! ### The sequences that end or escape script data -/

/-- The text begins with the word, in any letter case, and goes on as said. -/
def closes (goesOn : Char → Bool) : List Char → List Char → Bool
  | _, [] => false
  | [], c :: _ => goesOn c
  | letter :: word, c :: text => c.toLower = letter && closes goesOn word text

/-- What, after a `<`, opens an end tag or a comment. -/
def opensBreak (goesOn : Char → Bool) : List Char → Bool
  | '/' :: text => closes goesOn script text
  | '!' :: text => ['-', '-'].isPrefixOf text
  | _ => false

/-- Somewhere in the text stands `<!--`, or `</script` in any letter case with something
after it that ends the name. -/
def breaks (goesOn : Char → Bool) : List Char → Bool
  | [] => false
  | c :: text => (c = '<' && opensBreak goesOn text) || breaks goesOn text

/-- A sequence that the state is inside of goes on to its end. -/
def pending : State → List Char → Bool
  | .lessThan, text => opensBreak endsName text
  | .endTagOpen, text => closes endsName script text
  | .endTagName name, text =>
      name.isPrefixOf script && closes endsName (script.drop name.length) text
  | .escapeStart, text => ['-', '-'].isPrefixOf text
  | .escapeStartDash, text => ['-'].isPrefixOf text
  | _, _ => false

/-- The text goes on to the end of the element or into an escaped state. -/
def broken (state : State) (text : List Char) : Bool := pending state text || breaks endsName text

theorem breaks_cons {goesOn : Char → Bool} {c : Char} (hc : c ≠ '<') (text : List Char) :
    breaks goesOn (c :: text) = breaks goesOn text := by
  simp [breaks, hc]

theorem breaks_append {goesOn : Char → Bool} {text : List Char} (h : '<' ∉ text)
    (rest : List Char) : breaks goesOn (text ++ rest) = breaks goesOn rest := by
  induction text with
  | nil => rfl
  | cons c text ih =>
      rw [List.mem_cons, not_or] at h
      rw [List.cons_append, breaks_cons (Ne.symm h.1), ih h.2]

theorem opensBreak_other {goesOn : Char → Bool} {c : Char} (hslash : c ≠ '/') (hmark : c ≠ '!')
    (text : List Char) : opensBreak goesOn (c :: text) = false := by
  unfold opensBreak
  split <;> simp_all

theorem isAlpha_of_toLower {c letter : Char} (hletter : letter ∈ script)
    (h : c.toLower = letter) : c.isAlpha = true := by
  have hlower : ∀ letter ∈ script, letter.isAlpha = true := by
    simp only [script, List.forall_mem_cons, List.not_mem_nil, false_implies, implies_true,
      and_true]
    decide
  unfold Char.toLower at h
  split at h
  · rename_i hupper
    exact Bool.or_eq_true_iff.mpr (Or.inl (decide_eq_true hupper))
  · rw [h]
    exact hlower letter hletter

theorem not_endsName_of_isAlpha {c : Char} (h : c.isAlpha = true) : endsName c = false := by
  rw [Bool.eq_false_iff]
  intro hends
  have hfeed : c.toNat = 12 → c = Char.ofNat 12 := fun heq => by rw [← heq, Char.ofNat_toNat]
  simp only [endsName, Bool.or_eq_true, decide_eq_true_eq] at hends
  rcases hends with ((((rfl | rfl) | heq) | rfl) | rfl) | rfl
  · cases h
  · cases h
  · rw [hfeed heq] at h
    cases h
  · cases h
  · cases h
  · cases h

theorem ne_lt_of_isAlpha {c : Char} (h : c.isAlpha = true) : c ≠ '<' := by
  rintro rfl
  cases h

theorem broken_nil (state : State) : broken state [] = false := by
  cases state <;> simp [broken, pending, opensBreak, closes, breaks]

theorem plain_inData (c : Char) : (inData c).isPlain = true := by
  unfold inData
  split_ifs <;> rfl

theorem broken_inData (c : Char) (text : List Char) :
    broken (inData c) text = breaks endsName (c :: text) := by
  by_cases hc : c = '<'
  · simp [broken, inData, hc, pending, breaks]
  · simp [broken, inData, hc, pending, breaks_cons hc]

/-- A name that begins `script` goes on with the other letters. -/
theorem pending_of_append {name others : List Char} (h : name ++ others = script)
    (text : List Char) : pending (.endTagName name) text = closes endsName others text := by
  have hprefix : name.isPrefixOf script = true := List.isPrefixOf_iff_prefix.mpr ⟨others, h⟩
  have hdrop : script.drop name.length = others := by rw [← h, List.drop_left]
  rw [pending, hprefix, hdrop, Bool.true_and]

/-- Any other name goes on to nothing. -/
theorem pending_of_unfitting {name : List Char} (h : ¬ name <+: script) (text : List Char) :
    pending (.endTagName name) text = false := by
  rw [← List.isPrefixOf_iff_prefix, Bool.not_eq_true] at h
  rw [pending, h, Bool.false_and]

/-- A letter that is part of a name. -/
theorem broken_endTagName {name : List Char} {c : Char} (hc : c.isAlpha = true)
    (text : List Char) :
    broken (.endTagName (name ++ [c.toLower])) text = broken (.endTagName name) (c :: text) := by
  have hname : pending (.endTagName (name ++ [c.toLower])) text =
      pending (.endTagName name) (c :: text) := by
    by_cases hprefix : name <+: script
    · obtain ⟨others, hothers⟩ := hprefix
      rw [pending_of_append hothers]
      cases others with
      | nil =>
          have hlong : ¬ name ++ [c.toLower] <+: script := by
            intro hpre
            have hlength := hpre.length_le
            rw [← hothers] at hlength
            simp only [List.length_append, List.length_cons, List.length_nil] at hlength
            omega
          rw [pending_of_unfitting hlong, closes, not_endsName_of_isAlpha hc]
      | cons letter others =>
          by_cases hletter : c.toLower = letter
          · have hlonger : name ++ [c.toLower] ++ others = script := by
              rw [hletter, ← List.append_cons, hothers]
            rw [pending_of_append hlonger, closes, decide_eq_true hletter, Bool.true_and]
          · have hother : ¬ name ++ [c.toLower] <+: script := by
              rw [← hothers, List.prefix_append_right_inj]
              exact fun hpre => hletter (List.cons_prefix_cons.mp hpre).1
            rw [pending_of_unfitting hother, closes, decide_eq_false hletter, Bool.false_and]
    · have hlong : ¬ name ++ [c.toLower] <+: script :=
        fun hpre => hprefix ((List.prefix_append _ _).trans hpre)
      rw [pending_of_unfitting hlong, pending_of_unfitting hprefix]
  rw [broken, broken, hname, breaks_cons (ne_lt_of_isAlpha hc)]

/-- A character that is no letter goes on with no name. -/
theorem closes_of_not_isAlpha {goesOn : Char → Bool} {name : List Char} {c : Char}
    (hc : c.isAlpha = false) (hname : ∀ letter ∈ name, letter ∈ script) (hne : name ≠ [])
    (text : List Char) : closes goesOn name (c :: text) = false := by
  cases name with
  | nil => exact absurd rfl hne
  | cons letter name =>
      have hletter : ¬ c.toLower = letter := by
        intro heq
        rw [isAlpha_of_toLower (hname letter List.mem_cons_self) heq] at hc
        cases hc
      rw [closes, decide_eq_false hletter]
      rfl

/-- From a state that is not escaped, a character ends the element or escapes the text, or
leaves to the next state what is left of it. -/
theorem broken_step {state : State} (hplain : state.isPlain = true) (c : Char)
    (text : List Char) :
    broken state (c :: text) = (!(step state c).isPlain || broken (step state c) text) := by
  have hdata : pending state (c :: text) = false → step state c = inData c →
      broken state (c :: text) = (!(step state c).isPlain || broken (step state c) text) := by
    intro hpending hstep
    rw [hstep, plain_inData, broken_inData, broken, hpending]
    rfl
  cases state with
  | data => exact hdata rfl rfl
  | lessThan =>
      by_cases hslash : c = '/'
      · subst hslash
        rfl
      · by_cases hmark : c = '!'
        · subst hmark
          rfl
        · exact hdata (opensBreak_other hslash hmark text)
            ((if_neg hslash).trans (if_neg hmark))
  | endTagOpen =>
      by_cases hc : c.isAlpha = true
      · have hstep : step .endTagOpen c = .endTagName ([] ++ [c.toLower]) := if_pos hc
        rw [hstep, broken_endTagName hc]
        rfl
      · have hcloses : closes endsName script (c :: text) = false :=
          closes_of_not_isAlpha (Bool.eq_false_iff.mpr hc) (fun _ h => h) (by decide) text
        exact hdata hcloses (if_neg hc)
  | endTagName name =>
      by_cases hend : endsName c = true ∧ name = script
      · have hstep : step (.endTagName name) c = .ended := if_pos hend
        have hpending : pending (.endTagName name) (c :: text) = true := by
          rw [hend.2, pending_of_append (List.append_nil script), closes]
          exact hend.1
        rw [hstep, broken, hpending]
        rfl
      · by_cases hc : c.isAlpha = true
        · have hstep : step (.endTagName name) c = .endTagName (name ++ [c.toLower]) :=
            (if_neg hend).trans (if_pos hc)
          rw [hstep, broken_endTagName hc]
          rfl
        · have hpending : pending (.endTagName name) (c :: text) = false := by
            by_cases hprefix : name <+: script
            · obtain ⟨others, hothers⟩ := hprefix
              rw [pending_of_append hothers]
              by_cases hnil : others = []
              · rw [hnil, List.append_nil] at hothers
                rw [hnil, closes, Bool.eq_false_iff]
                exact fun hends => hend ⟨hends, hothers⟩
              · refine closes_of_not_isAlpha (Bool.eq_false_iff.mpr hc) ?_ hnil text
                intro letter hletter
                rw [← hothers]
                exact List.mem_append_right name hletter
            · exact pending_of_unfitting hprefix (c :: text)
          exact hdata hpending ((if_neg hend).trans (if_neg hc))
  | escapeStart =>
      by_cases hdash : c = '-'
      · subst hdash
        rfl
      · have hopens : ['-', '-'].isPrefixOf (c :: text) = false := by
          simp [List.isPrefixOf, Ne.symm hdash]
        exact hdata hopens (if_neg hdash)
  | escapeStartDash =>
      by_cases hdash : c = '-'
      · subst hdash
        simp [broken, pending, step, State.isPlain]
      · have hopens : ['-'].isPrefixOf (c :: text) = false := by
          simp [List.isPrefixOf, Ne.symm hdash]
        exact hdata hopens (if_neg hdash)
  | _ => cases hplain

/-! ### Scanning -/

theorem plain_or_ended (state : State) :
    state.isPlain = true ∨ state.isEscaped = true ∨ state = .ended := by
  cases state <;> simp [State.isPlain, State.isEscaped]

theorem step_lt {state : State} (hplain : state.isPlain = true) :
    step state '<' = .lessThan := by
  have hends : endsName '<' = false := rfl
  cases state with
  | endTagName name => simp [step, hends, inData]
  | data | lessThan | endTagOpen | escapeStart | escapeStartDash => rfl
  | _ => cases hplain

/-- Text that is not broken is content up to the end tag that follows it. -/
theorem scan_unbroken {state : State} (hplain : state.isPlain = true) {content : List Char}
    (h : broken state content = false) (escaped : Bool) (read rest : List Char) :
    scan state escaped read (content ++ (closeTag ++ rest)) =
      some { content := read ++ content, escaped, rest } := by
  induction content generalizing state read with
  | nil =>
      have htag : closeTag ++ rest =
          '<' :: '/' :: 's' :: 'c' :: 'r' :: 'i' :: 'p' :: 't' :: '>' :: rest := rfl
      rw [List.nil_append, htag, scan, step_lt hplain]
      simp [scan, step, endsName, script, State.isEscaped, State.isPlain]
  | cons c content ih =>
      rw [broken_step hplain, Bool.or_eq_false_iff, Bool.not_eq_false'] at h
      have hnext : step state c ≠ .ended := by
        intro hended
        rw [hended] at h
        cases h.1
      have hescaped : (step state c).isEscaped = false := by simp [State.isEscaped, h.1]
      rw [List.cons_append, scan]
      simp only [if_neg hnext, hescaped, Bool.or_false]
      rw [ih h.1 h.2, List.append_assoc, List.singleton_append]

theorem escaped_of_scan {state : State} {read text : List Char} {element : Element}
    (h : scan state true read text = some element) : element.escaped = true := by
  induction text generalizing state read with
  | nil => cases h
  | cons c text ih =>
      rw [scan] at h
      split_ifs at h
      · cases h
        rfl
      · exact ih h

/-- Text that is broken escapes the element, or ends it. -/
theorem scan_broken {state : State} (hplain : state.isPlain = true) {content : List Char}
    (h : broken state content = true) {read rest : List Char} {element : Element}
    (hscan : scan state false read (content ++ rest) = some element) :
    element.escaped = true ∨ rest.length ≤ element.rest.length := by
  induction content generalizing state read with
  | nil =>
      rw [broken_nil] at h
      cases h
  | cons c content ih =>
      rw [broken_step hplain, Bool.or_eq_true] at h
      rw [List.cons_append, scan] at hscan
      rcases plain_or_ended (step state c) with hnext | hnext | hnext
      · have hended : step state c ≠ .ended := by
          intro hended
          rw [hended] at hnext
          cases hnext
        have hescaped : (step state c).isEscaped = false := by simp [State.isEscaped, hnext]
        rw [if_neg hended, hescaped] at hscan
        refine ih hnext (h.resolve_left ?_) hscan
        simp [hnext]
      · have hended : step state c ≠ .ended := by
          intro hended
          rw [hended] at hnext
          cases hnext
        rw [if_neg hended, hnext] at hscan
        exact Or.inl (escaped_of_scan hscan)
      · rw [if_pos hnext] at hscan
        cases hscan
        apply Or.inr
        rw [List.length_append]
        omega

/-- A script element keeps its content, unescaped and up to its own end tag, exactly if
nothing in the content breaks it. -/
theorem scan_content_iff {content rest : List Char} :
    scan .data false [] (content ++ (closeTag ++ rest)) =
      some { content, escaped := false, rest } ↔ breaks endsName content = false := by
  constructor
  · intro hscan
    rw [Bool.eq_false_iff]
    intro hbreaks
    have hbroken : broken .data content = true := hbreaks
    rcases scan_broken rfl hbroken hscan with hescaped | hlength
    · cases hescaped
    · have htag : closeTag.length = 9 := rfl
      rw [List.length_append, htag] at hlength
      dsimp only at hlength
      omega
  · intro hbreaks
    have hbroken : broken .data content = false := hbreaks
    exact scan_unbroken rfl hbroken false [] rest

end ScriptData

end Cositos
