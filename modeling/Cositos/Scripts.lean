/-
Script elements of a page: the sequences that would end one or hide its end, and a scan of
the page for its script elements.
-/
import Mathlib.Data.List.Basic

namespace Cositos

namespace Scripts

/-- The text begins with the word, which is in lower case, in any letter case. -/
def begins (word text : List Char) : Bool :=
  (text.take word.length).map Char.toLower = word

/-- What must not follow a `<` inside a script element. -/
def breakouts : List (List Char) := ["script".toList, "/script".toList, "!--".toList]

/-- No `<` of the text begins one of the sequences. -/
def Safe (text : List Char) : Prop :=
  ∀ before after, text = before ++ '<' :: after → ∀ word ∈ breakouts, begins word after = false

/-- Where a scan of a page is: outside of script elements, inside the tag of one, or inside
its content. -/
inductive Place
  | outside
  | tag (read : List Char)
  | content (tag read : List Char)

/-- The script elements of a page, each with what its tag says and with its content: a tag
ends at the first `>`, and the content at the first `</script`. -/
def scripts : Place → List Char → List (List Char × List Char)
  | _, [] => []
  | .outside, c :: text =>
      if c = '<' ∧ begins "script".toList text = true then scripts (.tag []) text
      else scripts .outside text
  | .tag read, c :: text =>
      if c = '>' then scripts (.content read []) text
      else scripts (.tag (read ++ [c])) text
  | .content tag read, c :: text =>
      if c = '<' ∧ begins "/script".toList text = true then (tag, read) :: scripts .outside text
      else scripts (.content tag (read ++ [c])) text

/-- The contents of the script elements of a type. -/
def blocks (mimetype : String) (page : String) : List String :=
  ((scripts .outside page.toList).filter fun script =>
    script.1 = ("script type=\"" ++ mimetype ++ "\"").toList).map
      fun script => String.ofList script.2

/-! ### Words -/

theorem begins_append {word : List Char} (hword : word.map Char.toLower = word)
    (text : List Char) : begins word (word ++ text) = true := by
  simp [begins, hword]

/-- A word is not begun by text that a character breaks off which the word does not have. -/
theorem begins_append_cons {word text : List Char} (h : begins word text = false) {stop : Char}
    (hstop : stop.toLower ∉ word) (rest : List Char) :
    begins word (text ++ stop :: rest) = false := by
  rw [begins, decide_eq_false_iff_not] at h ⊢
  by_cases hlength : word.length ≤ text.length
  · rwa [List.take_append_of_le_length hlength]
  · intro heq
    apply hstop
    rw [← heq, List.mem_map]
    refine ⟨stop, ?_, rfl⟩
    rw [List.take_append, List.mem_append]
    right
    obtain ⟨n, hn⟩ : ∃ n, word.length - text.length = n + 1 :=
      ⟨word.length - text.length - 1, by omega⟩
    rw [hn, List.take_succ_cons]
    exact List.mem_cons_self

/-- A `<` of two texts, the first of which has none, is in the second. -/
theorem split_of_not_mem {first second before after : List Char} (h : '<' ∉ first)
    (heq : first ++ second = before ++ '<' :: after) :
    ∃ before', second = before' ++ '<' :: after := by
  rcases List.append_eq_append_iff.mp heq with ⟨middle, -, hsecond⟩ | ⟨middle, rfl, hafter⟩
  · exact ⟨middle, hsecond⟩
  · cases middle with
    | nil => exact ⟨[], hafter.symm⟩
    | cons c middle =>
        rw [List.cons_append] at hafter
        obtain ⟨rfl, -⟩ := List.cons.inj hafter
        exact absurd (List.mem_append_right before List.mem_cons_self) h

/-- Line breaks around a text keep it safe. -/
theorem Safe.lines {text : List Char} (h : Safe text) : Safe ('\n' :: text ++ ['\n']) := by
  intro before after heq word hword
  have hnewline : ('\n').toLower ∉ word := by
    have hall : ∀ word ∈ breakouts, ('\n').toLower ∉ word := by decide
    exact hall word hword
  rw [List.cons_append, ← List.singleton_append] at heq
  obtain ⟨before', heq'⟩ := split_of_not_mem (by decide) heq
  rcases List.append_eq_append_iff.mp heq' with ⟨middle, -, hlast⟩ | ⟨middle, rfl, hlast⟩
  · have hmem : '<' ∈ ['\n'] := hlast ▸ List.mem_append_right middle List.mem_cons_self
    exact absurd hmem (by decide)
  · cases middle with
    | nil => simp at hlast
    | cons c middle =>
        rw [List.cons_append] at hlast
        obtain ⟨rfl, rfl⟩ := List.cons.inj hlast
        exact begins_append_cons (h before' middle rfl word hword) hnewline []

theorem eq_lt_of_toLower {c : Char} (h : c.toLower = '<') : c = '<' := by
  unfold Char.toLower at h
  split at h
  · rename_i hupper
    have hval := congrArg (fun d : Char => d.val.toNat) h
    simp only [UInt32.le_iff_toNat_le, ge_iff_le] at hupper
    simp at hval hupper
    omega
  · exact h

/-- The sequence, which is in lower case, stands somewhere in the text in any letter case. -/
def Occurs (sequence text : List Char) : Prop :=
  ∃ before middle after, text = before ++ (middle ++ after) ∧ middle.map Char.toLower = sequence

/-- A safe text holds none of the sequences. -/
theorem Safe.not_occurs {text : List Char} (h : Safe text) {word : List Char}
    (hword : word ∈ breakouts) : ¬ Occurs ('<' :: word) text := by
  rintro ⟨before, middle, after, rfl, hmiddle⟩
  cases middle with
  | nil => simp at hmiddle
  | cons c middle =>
      rw [List.map_cons] at hmiddle
      obtain ⟨hc, hmiddle⟩ := List.cons.inj hmiddle
      rw [eq_lt_of_toLower hc] at h
      have hnot := h before (middle ++ after) rfl word hword
      have hlength : middle.length = word.length := by rw [← hmiddle, List.length_map]
      rw [begins, ← hlength, List.take_left, hmiddle] at hnot
      simp at hnot

/-! ### Scanning -/

theorem scripts_outside {text : List Char} (h : '<' ∉ text) (rest : List Char) :
    scripts .outside (text ++ rest) = scripts .outside rest := by
  induction text with
  | nil => rfl
  | cons c text ih =>
      rw [List.mem_cons, not_or] at h
      rw [List.cons_append, scripts, if_neg fun hc => h.1 hc.1.symm, ih h.2]

theorem scripts_tag {tag : List Char} (h : '>' ∉ tag) (read rest : List Char) :
    scripts (.tag read) (tag ++ '>' :: rest) = scripts (.content (read ++ tag) []) rest := by
  induction tag generalizing read with
  | nil => rw [List.nil_append, List.append_nil, scripts, if_pos rfl]
  | cons c tag ih =>
      rw [List.mem_cons, not_or] at h
      rw [List.cons_append, scripts, if_neg fun hc => h.1 hc.symm, ih h.2, List.append_assoc]
      rfl

/-- Content goes on to the end tag that follows it. -/
theorem scripts_content {content : List Char} (h : ∀ before after,
      content = before ++ '<' :: after → begins "/script".toList after = false)
    (tag read rest : List Char) :
    scripts (.content tag read) (content ++ '<' :: ("/script".toList ++ rest)) =
      (tag, read ++ content) :: scripts .outside rest := by
  induction content generalizing read with
  | nil =>
      have hend : begins "/script".toList ("/script".toList ++ rest) = true :=
        begins_append (by decide) rest
      rw [List.nil_append, scripts, if_pos ⟨rfl, hend⟩, scripts_outside (by decide),
        List.append_nil]
  | cons c content ih =>
      have hgoes : ¬ (c = '<' ∧
          begins "/script".toList (content ++ '<' :: ("/script".toList ++ rest)) = true) := by
        rintro ⟨rfl, hbegins⟩
        have hstop : ('<').toLower ∉ "/script".toList := by decide
        have hnot := begins_append_cons (h [] content rfl) hstop ("/script".toList ++ rest)
        rw [hnot] at hbegins
        cases hbegins
      have hrest : ∀ before after, content = before ++ '<' :: after →
          begins "/script".toList after = false := by
        rintro before after rfl
        exact h (c :: before) after rfl
      rw [List.cons_append, scripts, if_neg hgoes, ih hrest, List.append_assoc]
      rfl

/-- A script element with safe content is one script element of the page. -/
theorem scripts_element {attributes content : List Char} (hattributes : '>' ∉ attributes)
    (hcontent : Safe content) (rest : List Char) :
    scripts .outside ('<' :: ("script".toList ++ attributes ++ '>' ::
        (content ++ '<' :: ("/script".toList ++ '>' :: rest)))) =
      ("script".toList ++ attributes, content) :: scripts .outside rest := by
  have hbegins : begins "script".toList ("script".toList ++ (attributes ++ '>' ::
      (content ++ '<' :: ("/script".toList ++ '>' :: rest)))) = true :=
    begins_append (by decide) _
  have htag : '>' ∉ "script".toList ++ attributes := by
    rw [List.mem_append, not_or]
    exact ⟨by decide, hattributes⟩
  have hend : ∀ before after, content = before ++ '<' :: after →
      begins "/script".toList after = false := fun before after heq =>
    hcontent before after heq _ (by decide)
  rw [scripts, if_pos ⟨rfl, by rwa [List.append_assoc]⟩, scripts_tag htag, scripts_content hend,
    List.nil_append, List.nil_append]
  exact congrArg _ (scripts_outside (by decide : '<' ∉ ['>']) rest)

theorem scripts_elementText {attributes content : String} (hattributes : '>' ∉ attributes.toList)
    (hcontent : Safe content.toList) (rest : List Char) :
    scripts .outside (("<script" ++ attributes ++ ">" ++ content ++ "</script>").toList ++ rest) =
      ("script".toList ++ attributes.toList, content.toList) :: scripts .outside rest := by
  rw [← scripts_element hattributes hcontent rest]
  have htag : "<script".toList = '<' :: "script".toList := rfl
  have hclose : ">".toList = ['>'] := rfl
  have hend : "</script>".toList = '<' :: ("/script".toList ++ ['>']) := rfl
  simp only [String.toList_append, htag, hclose, hend, List.append_assoc, List.cons_append,
    List.nil_append]

end Scripts

end Cositos
