/-
JSON printed into a script: when a text breaks the script element around it, and what the
script makes of it as an expression.
-/
import Mathlib.Algebra.Group.Nat.Defs
import Cositos.Dict
import Cositos.Doubles
import Cositos.JsonText
import Cositos.ScriptData

namespace Cositos

open JsonText ScriptData

namespace Json

variable {φ : Type}

/-! ### The values inside of a value -/

mutual

/-- A value and the values inside of it. -/
def nodes : Json φ → List (Json φ)
  | .arr xs => .arr xs :: nodesItems xs
  | .obj members => .obj members :: nodesMembers members
  | v => [v]

def nodesItems : List (Json φ) → List (Json φ)
  | [] => []
  | x :: xs => nodes x ++ nodesItems xs

def nodesMembers : List (String × Json φ) → List (Json φ)
  | [] => []
  | (_, x) :: members => nodes x ++ nodesMembers members

end

theorem nodesItems_eq (xs : List (Json φ)) : nodesItems xs = xs.flatMap nodes := by
  induction xs with
  | nil => rfl
  | cons x xs ih => rw [nodesItems, ih, List.flatMap_cons]

theorem nodesMembers_eq (members : List (String × Json φ)) :
    nodesMembers members = members.flatMap fun m => nodes m.2 := by
  induction members with
  | nil => rfl
  | cons m members ih => rw [nodesMembers, ih, List.flatMap_cons]

theorem exists_nodes_arr {P : Json φ → Prop} {xs : List (Json φ)} :
    (∃ node ∈ (arr xs).nodes, P node) ↔ P (arr xs) ∨ ∃ x ∈ xs, ∃ node ∈ x.nodes, P node := by
  simp only [nodes, nodesItems_eq, List.exists_mem_cons_iff, List.mem_flatMap]
  exact or_congr_right ⟨fun ⟨node, ⟨x, hx, hnode⟩, h⟩ => ⟨x, hx, node, hnode, h⟩,
    fun ⟨x, hx, node, hnode, h⟩ => ⟨node, ⟨x, hx, hnode⟩, h⟩⟩

theorem exists_nodes_obj {P : Json φ → Prop} {members : List (String × Json φ)} :
    (∃ node ∈ (obj members).nodes, P node) ↔
      P (obj members) ∨ ∃ m ∈ members, ∃ node ∈ m.2.nodes, P node := by
  simp only [nodes, nodesMembers_eq, List.exists_mem_cons_iff, List.mem_flatMap]
  exact or_congr_right ⟨fun ⟨node, ⟨m, hm, hnode⟩, h⟩ => ⟨m, hm, node, hnode, h⟩,
    fun ⟨m, hm, node, hnode, h⟩ => ⟨node, ⟨m, hm, hnode⟩, h⟩⟩

theorem forall_nodes_arr {P : Json φ → Prop} {xs : List (Json φ)} :
    (∀ node ∈ (arr xs).nodes, P node) ↔ P (arr xs) ∧ ∀ x ∈ xs, ∀ node ∈ x.nodes, P node := by
  simp only [nodes, nodesItems_eq, List.forall_mem_cons, List.forall_mem_flatMap]

theorem forall_nodes_obj {P : Json φ → Prop} {members : List (String × Json φ)} :
    (∀ node ∈ (obj members).nodes, P node) ↔
      P (obj members) ∧ ∀ m ∈ members, ∀ node ∈ m.2.nodes, P node := by
  simp only [nodes, nodesMembers_eq, List.forall_mem_cons, List.forall_mem_flatMap]

/-- The strings that are printed for a value itself: a string, or the keys of an object. -/
def ownStrings : Json φ → List String
  | .str s => [s]
  | .obj members => Dict.keys members
  | _ => []

/-- All strings of a value, and all keys. -/
def strings (v : Json φ) : List String := v.nodes.flatMap ownStrings

theorem exists_strings {P : String → Prop} {v : Json φ} :
    (∃ s ∈ v.strings, P s) ↔ ∃ node ∈ v.nodes, ∃ s ∈ node.ownStrings, P s := by
  simp only [strings, List.mem_flatMap]
  exact ⟨fun ⟨s, ⟨node, hnode, hs⟩, h⟩ => ⟨node, hnode, s, hs, h⟩,
    fun ⟨node, hnode, s, hs, h⟩ => ⟨s, ⟨node, hnode, hs⟩, h⟩⟩

/-! ### Texts that break a script element -/

/-- Quotes, backslashes and control characters. -/
def Escapable (c : Char) : Prop :=
  c = '"' ∨ c = '\\' ∨ c.toNat < 32 ∨ (127 ≤ c.toNat ∧ c.toNat < 160)

/-- What ends the name of a tag and is no control character. -/
def endsVisibly (c : Char) : Bool := c = ' ' || c = '/' || c = '>'

instance : DecidablePred Escapable := fun c =>
  inferInstanceAs (Decidable (c = '"' ∨ c = '\\' ∨ c.toNat < 32 ∨ (127 ≤ c.toNat ∧ c.toNat < 160)))

theorem Escapable.not_isAlpha {c : Char} (h : Escapable c) : c.isAlpha = false := by
  rw [Bool.eq_false_iff]
  intro halpha
  have hcases : (c.isUpper || c.isLower) = true := halpha
  have hrange : (65 ≤ c.toNat ∧ c.toNat ≤ 90) ∨ 97 ≤ c.toNat ∧ c.toNat ≤ 122 := by
    rcases Bool.or_eq_true_iff.mp hcases with hupper | hlower
    · obtain ⟨hfrom, hto⟩ := of_decide_eq_true hupper
      exact Or.inl ⟨UInt32.le_iff_toNat_le.mp hfrom, UInt32.le_iff_toNat_le.mp hto⟩
    · obtain ⟨hfrom, hto⟩ := Bool.and_eq_true_iff.mp hlower
      exact Or.inr ⟨UInt32.le_iff_toNat_le.mp (of_decide_eq_true hfrom),
        UInt32.le_iff_toNat_le.mp (of_decide_eq_true hto)⟩
  rcases h with rfl | rfl | hcontrol
  · revert hrange
    decide
  · revert hrange
    decide
  · omega

/-- The characters of the sequences, letters apart. -/
theorem not_escapable : ∀ d ∈ ['<', '/', '!', '-', ' ', '>'], ¬ Escapable d := by
  simp only [List.forall_mem_cons, List.not_mem_nil, false_implies, implies_true, and_true]
  decide

theorem Escapable.ne {c : Char} (h : Escapable c) {d : Char}
    (hd : d ∈ ['<', '/', '!', '-', ' ', '>']) : c ≠ d := by
  rintro rfl
  exact not_escapable c hd h

theorem endsName_of_visible {c : Char} (h : ' ' ≤ c) : endsName c = endsVisibly c := by
  have hspace : 32 ≤ c.toNat := h
  have htab : c ≠ '\t' := by
    rintro rfl
    exact absurd hspace (by decide)
  have hline : c ≠ '\n' := by
    rintro rfl
    exact absurd hspace (by decide)
  have hfeed : c.toNat ≠ 12 := by omega
  simp [endsName, endsVisibly, htab, hline, hfeed]

variable {s body : List Char}

theorem closes_body {name : List Char} (hname : ∀ letter ∈ name, letter ∈ script)
    (h : BodyOf Escapable s body) (rest : List Char) :
    closes endsName name (body ++ '"' :: rest) = closes endsVisibly name s := by
  induction name generalizing s body with
  | nil =>
      cases h with
      | nil => rfl
      | @cons c s text body hc hs =>
          rcases hc.cases with ⟨rfl, -, hspace⟩ | ⟨hmay, -, tail, rfl⟩
          · exact endsName_of_visible hspace
          · have hends : endsVisibly c = false := by simp [endsVisibly, hmay.ne]
            rw [closes, hends]
            rfl
  | cons letter name ih =>
      have hne : letter :: name ≠ [] := List.cons_ne_nil letter name
      cases h with
      | nil => exact closes_of_not_isAlpha rfl hname hne rest
      | @cons c s text body hc hs =>
          rcases hc.cases with ⟨rfl, -, -⟩ | ⟨hmay, -, tail, rfl⟩
          · have hrest := ih (List.forall_mem_cons.mp hname).2 hs
            rw [List.append_assoc, List.singleton_append, closes, closes, hrest]
          · rw [List.append_assoc, List.cons_append, closes_of_not_isAlpha rfl hname hne,
              closes_of_not_isAlpha hmay.not_isAlpha hname hne]

theorem prefix_body {word : List Char} (hword : ∀ d ∈ word, ¬ Escapable d)
    (h : BodyOf Escapable s body) (rest : List Char) :
    word.isPrefixOf (body ++ '"' :: rest) = word.isPrefixOf s := by
  induction word generalizing s body with
  | nil => rfl
  | cons d word ih =>
      obtain ⟨hd, hword⟩ := List.forall_mem_cons.mp hword
      have hne : ∀ {c : Char}, Escapable c → (d == c) = false := by
        intro c hc
        rw [beq_eq_false_iff_ne]
        rintro rfl
        exact hd hc
      cases h with
      | nil =>
          rw [List.nil_append, List.isPrefixOf_cons_cons, hne (Or.inl rfl)]
          rfl
      | @cons c s text body hc hs =>
          rcases hc.cases with ⟨rfl, -, -⟩ | ⟨hmay, -, tail, rfl⟩
          · rw [List.append_assoc, List.singleton_append, List.isPrefixOf_cons_cons,
              List.isPrefixOf_cons_cons, ih hword hs]
          · rw [List.cons_append, List.cons_append, List.isPrefixOf_cons_cons,
              List.isPrefixOf_cons_cons, hne (Or.inr (Or.inl rfl)), hne hmay]
            rfl

theorem opensBreak_body (h : BodyOf Escapable s body) (rest : List Char) :
    opensBreak endsName (body ++ '"' :: rest) = opensBreak endsVisibly s := by
  cases h with
  | nil => rfl
  | @cons c s text body hc hs =>
      rcases hc.cases with ⟨rfl, -, -⟩ | ⟨hmay, -, tail, rfl⟩
      · rw [List.append_assoc, List.singleton_append]
        by_cases hslash : c = '/'
        · subst hslash
          exact closes_body (fun _ h => h) hs rest
        · by_cases hmark : c = '!'
          · subst hmark
            have hdashes : ∀ d ∈ ['-', '-'], ¬ Escapable d :=
              List.forall_mem_cons.mpr ⟨by decide, List.forall_mem_singleton.mpr (by decide)⟩
            exact prefix_body hdashes hs rest
          · rw [opensBreak_other hslash hmark, opensBreak_other hslash hmark]
      · rw [List.cons_append, List.cons_append, opensBreak_other (by decide) (by decide),
          opensBreak_other (hmay.ne (by decide)) (hmay.ne (by decide))]

/-- A string literal breaks its element if the string does, up to the control characters, which
are escaped. -/
theorem breaks_body (h : BodyOf Escapable s body) (rest : List Char) :
    breaks endsName (body ++ '"' :: rest) =
      (breaks endsVisibly s || breaks endsName rest) := by
  induction h with
  | nil => rfl
  | @cons c s text body hc hs ih =>
      rcases hc.cases with ⟨rfl, -, -⟩ | ⟨hmay, hlt, -⟩
      · rw [List.append_assoc, List.singleton_append, breaks, breaks, opensBreak_body hs, ih,
          Bool.or_assoc]
      · rw [List.append_assoc, breaks_append hlt, breaks_cons (hmay.ne (by decide)), ih]

/-- Wherever a text stands, it breaks its element if the property holds, or what follows does. -/
def BreaksIf (P : Prop) (text : List Char) : Prop :=
  ∀ rest, breaks endsName (text ++ rest) = true ↔ P ∨ breaks endsName rest = true

theorem BreaksIf.whole {P : Prop} {text : List Char} (h : BreaksIf P text) :
    breaks endsName text = true ↔ P := by
  have hend := h []
  rw [List.append_nil] at hend
  simpa only [breaks, Bool.false_eq_true, or_false] using hend

theorem breaksIf_false {text : List Char} (h : '<' ∉ text) : BreaksIf False text := by
  intro rest
  rw [breaks_append h, false_or]

theorem BreaksIf.append {P Q : Prop} {first second : List Char} (hfirst : BreaksIf P first)
    (hsecond : BreaksIf Q second) : BreaksIf (P ∨ Q) (first ++ second) := by
  intro rest
  rw [List.append_assoc, hfirst, hsecond, or_assoc]

theorem BreaksIf.congr {P Q : Prop} {text : List Char} (h : BreaksIf P text) (hiff : P ↔ Q) :
    BreaksIf Q text := by
  intro rest
  rw [h rest, hiff]

theorem BreaksIf.cons {P : Prop} {c : Char} (hc : c ≠ '<') {text : List Char}
    (h : BreaksIf P text) : BreaksIf P (c :: text) := by
  intro rest
  rw [List.cons_append, breaks_cons hc, h rest]

theorem lt_not_mem_gap {gap : List Char} (h : Gap gap) : '<' ∉ gap :=
  fun hmem => absurd (h '<' hmem) (by decide)

theorem BreaksIf.gap {P : Prop} {gap : List Char} (hgap : Gap gap) {text : List Char}
    (h : BreaksIf P text) : BreaksIf P (gap ++ text) :=
  ((breaksIf_false (lt_not_mem_gap hgap)).append h).congr (Iff.of_eq (false_or P))

theorem breaksIf_quoted (h : BodyOf Escapable s body) {P : Prop} {text : List Char}
    (htext : BreaksIf P text) :
    BreaksIf (breaks endsVisibly s = true ∨ P) ('"' :: (body ++ '"' :: text)) := by
  intro rest
  rw [List.cons_append, breaks_cons (by decide), List.append_assoc, List.cons_append,
    breaks_body h, Bool.or_eq_true, htext rest, or_assoc]

section Sequences

variable {α : Type} {item : α → List Char → Prop} {P : α → Prop} {close : Char}

theorem follows_breaksIf (hclose : close ≠ '<') {xs : List α} {text : List Char}
    (h : Follows item close xs text)
    (hitem : ∀ x ∈ xs, ∀ text, item x text → BreaksIf (P x) text) :
    BreaksIf (∃ x ∈ xs, P x) text := by
  induction h with
  | close hgap =>
      have hend : BreaksIf False [close] := breaksIf_false (by simp [hclose.symm])
      exact (hend.gap hgap).congr (by simp)
  | next hgap hgap' hfirst _ ih =>
      obtain ⟨hx, hxs⟩ := List.forall_mem_cons.mp hitem
      have hrest := (hx _ hfirst).append (ih hxs)
      exact (((hrest.gap hgap').cons (by decide)).gap hgap).congr
        (List.exists_mem_cons_iff _ _ _).symm

theorem sequence_breaksIf (hclose : close ≠ '<') {xs : List α} {text : List Char}
    (h : Sequence item close xs text)
    (hitem : ∀ x ∈ xs, ∀ text, item x text → BreaksIf (P x) text) :
    BreaksIf (∃ x ∈ xs, P x) text := by
  cases h with
  | empty hgap =>
      have hend : BreaksIf False [close] := breaksIf_false (by simp [hclose.symm])
      exact (hend.gap hgap).congr (by simp)
  | items hgap hfirst hothers =>
      obtain ⟨hx, hxs⟩ := List.forall_mem_cons.mp hitem
      have hrest := (hx _ hfirst).append (follows_breaksIf hclose hothers hxs)
      exact (hrest.gap hgap).congr
        (List.exists_mem_cons_iff _ _ _).symm

end Sequences

variable {format : FloatText φ}

/-- The text of a value breaks its element exactly if one of its strings does. -/
theorem spells_breaksIf {v : Json φ} {text : List Char} (h : Spells Escapable format v text) :
    BreaksIf (∃ s ∈ v.strings, breaks endsVisibly s.toList = true) text := by
  simp only [exists_strings]
  have hleaf : ∀ {v : Json φ}, v.nodes = [v] → v.ownStrings = [] → ∀ {text}, '<' ∉ text →
      BreaksIf (∃ node ∈ v.nodes, ∃ s ∈ node.ownStrings, breaks endsVisibly s.toList = true)
        text := by
    intro v hnodes hown text hlt
    exact (breaksIf_false hlt).congr (by simp [hnodes, hown])
  induction v using tree_induction generalizing text with
  | null =>
      cases h
      exact hleaf rfl rfl (by decide)
  | bool b =>
      cases h with
      | true => exact hleaf rfl rfl (by decide)
      | false => exact hleaf rfl rfl (by decide)
  | int i =>
      cases h
      exact hleaf rfl rfl (lt_not_mem_intText i)
  | float q =>
      cases h with
      | float h => exact hleaf rfl rfl (lt_not_mem_floatLiteral h)
  | str s =>
      cases h with
      | str hbody =>
          have hend : BreaksIf False [] := breaksIf_false List.not_mem_nil
          exact (breaksIf_quoted hbody hend).congr (by simp [nodes, ownStrings])
  | arr xs ih =>
      cases h with
      | arr h =>
          have hitems := sequence_breaksIf (by decide) h fun x hx _ htext => ih x hx htext
          exact (hitems.cons (by decide)).congr (by simp [exists_nodes_arr, ownStrings])
  | obj members ih =>
      cases h with
      | obj h =>
          have hmembers := sequence_breaksIf (P := fun m : String × Json φ =>
            breaks endsVisibly m.1.toList = true ∨ ∃ node ∈ m.2.nodes, ∃ s ∈ node.ownStrings,
              breaks endsVisibly s.toList = true) (by decide) h ?_
          · refine (hmembers.cons (by decide)).congr ?_
            rw [exists_nodes_obj]
            constructor
            · rintro ⟨m, hm, hkey | hvalue⟩
              · exact Or.inl ⟨m.1, List.mem_map_of_mem hm, hkey⟩
              · exact Or.inr ⟨m, hm, hvalue⟩
            · rintro (⟨s, hs, hkey⟩ | ⟨m, hm, hvalue⟩)
              · obtain ⟨m, hm, rfl⟩ := List.mem_map.mp hs
                exact ⟨m, hm, Or.inl hkey⟩
              · exact ⟨m, hm, Or.inr hvalue⟩
          · intro m hm text htext
            cases htext with
            | intro hbody hgap hgap' hvalue =>
                have hvalue := ih _ hm hvalue
                exact breaksIf_quoted hbody (((hvalue.gap hgap').cons (by decide)).gap hgap)

/-! ### A text as an expression of a script -/

mutual

/-- The value of the text of a JSON value as a JavaScript expression, where it is finite.  A key
`__proto__` in a literal sets the prototype and makes no property; of equal keys the last one
counts. -/
def eval : Json φ → Option (Json φ)
  | .int i => do
      let i ← toNumber i
      return .int i
  | .arr xs => do
      let xs ← evalItems xs
      return .arr xs
  | .obj members => do
      let members ← evalMembers members
      return .obj (Dict.update [] members)
  | v => some v

def evalItems : List (Json φ) → Option (List (Json φ))
  | [] => some []
  | x :: xs => do
      let x ← eval x
      let xs ← evalItems xs
      return x :: xs

/-- The properties of an object literal. -/
def evalMembers : List (String × Json φ) → Option (List (String × Json φ))
  | [] => some []
  | (k, x) :: members => do
      let x ← eval x
      let members ← evalMembers members
      return if k = "__proto__" then members else (k, x) :: members

end

/-- No object binds a key twice. -/
def Distinct (v : Json φ) : Prop :=
  ∀ node ∈ v.nodes, ∀ members, node = .obj members → (Dict.keys members).Nodup

/-- What a node of a value needs in order to be an expression for itself. -/
def OwnLiteral : Json φ → Prop
  | .int i => IsDouble i
  | .obj members => "__proto__" ∉ Dict.keys members
  | _ => True

/-- The integers are doubles and no key is `__proto__`. -/
def Literal (v : Json φ) : Prop := ∀ node ∈ v.nodes, node.OwnLiteral

theorem evalItems_eq_self_iff {xs : List (Json φ)} :
    evalItems xs = some xs ↔ ∀ x ∈ xs, eval x = some x := by
  induction xs with
  | nil => simp [evalItems]
  | cons x xs ih =>
      rw [List.forall_mem_cons, ← ih]
      cases hx : eval x with
      | none => simp [evalItems, hx]
      | some y =>
          cases hxs : evalItems xs with
          | none => simp [evalItems, hx, hxs]
          | some ys => simp [evalItems, hx, hxs]

theorem keys_evalMembers {members own : List (String × Json φ)}
    (h : evalMembers members = some own) :
    Dict.keys own = (Dict.keys members).filter (· ≠ "__proto__") := by
  induction members generalizing own with
  | nil =>
      cases h
      rfl
  | cons m members ih =>
      obtain ⟨k, x⟩ := m
      simp only [evalMembers, bind, Option.bind_eq_some_iff, pure, Option.some.injEq] at h
      obtain ⟨y, -, others, hothers, rfl⟩ := h
      rw [Dict.keys_cons]
      by_cases hk : k = "__proto__"
      · rw [if_pos hk, ih hothers, List.filter_cons_of_neg (by simp [hk])]
      · rw [if_neg hk, Dict.keys_cons, ih hothers, List.filter_cons_of_pos (by simp [hk])]

theorem evalMembers_eq_self_iff {members : List (String × Json φ)} :
    evalMembers members = some members ↔
      "__proto__" ∉ Dict.keys members ∧ ∀ m ∈ members, eval m.2 = some m.2 := by
  induction members with
  | nil => simp [evalMembers]
  | cons m members ih =>
      obtain ⟨k, x⟩ := m
      rw [List.forall_mem_cons, Dict.keys_cons, List.mem_cons, not_or]
      constructor
      · intro h
        have hkeys := keys_evalMembers h
        have hproto : "__proto__" ∉ k :: Dict.keys members := by
          intro hmem
          rw [← Dict.keys_cons k x, hkeys] at hmem
          simp at hmem
        rw [List.mem_cons, not_or] at hproto
        simp only [evalMembers, bind, Option.bind_eq_some_iff, pure, Option.some.injEq] at h
        obtain ⟨y, hx, others, hothers, heq⟩ := h
        rw [if_neg (Ne.symm hproto.1)] at heq
        simp only [List.cons.injEq, Prod.mk.injEq, true_and] at heq
        obtain ⟨rfl, rfl⟩ := heq
        exact ⟨hproto, hx, (ih.mp hothers).2⟩
      · rintro ⟨⟨hk, hproto⟩, hx, hothers⟩
        simp only [evalMembers, hx, ih.mpr ⟨hproto, hothers⟩, bind, Option.bind, pure]
        rw [if_neg (Ne.symm hk)]

theorem literal_arr_iff {xs : List (Json φ)} : (arr xs).Literal ↔ ∀ x ∈ xs, x.Literal := by
  rw [Literal, forall_nodes_arr]
  exact and_iff_right trivial

theorem literal_obj_iff {members : List (String × Json φ)} :
    (obj members).Literal ↔ "__proto__" ∉ Dict.keys members ∧ ∀ m ∈ members, m.2.Literal :=
  forall_nodes_obj

theorem distinct_arr_iff {xs : List (Json φ)} : (arr xs).Distinct ↔ ∀ x ∈ xs, x.Distinct := by
  rw [Distinct, forall_nodes_arr]
  exact and_iff_right (fun _ h => by cases h)

theorem distinct_obj_iff {members : List (String × Json φ)} :
    (obj members).Distinct ↔ (Dict.keys members).Nodup ∧ ∀ m ∈ members, m.2.Distinct := by
  rw [Distinct, forall_nodes_obj]
  refine and_congr_left' ⟨fun h => h members rfl, fun h members' heq => ?_⟩
  cases heq
  exact h

/-- A value is an expression for itself exactly if it is a literal. -/
theorem eval_eq_self_iff {v : Json φ} (h : v.Distinct) : eval v = some v ↔ v.Literal := by
  have hleaf : ∀ {v : Json φ}, v.nodes = [v] → eval v = some v → v.OwnLiteral →
      (eval v = some v ↔ v.Literal) := by
    intro v hnodes heval hown
    refine iff_of_true heval ?_
    rw [Literal, hnodes]
    exact List.forall_mem_singleton.mpr hown
  induction v using tree_induction with
  | null | bool _ | float _ | str _ => exact hleaf rfl rfl trivial
  | int i =>
      have heval : eval (Json.int i : Json φ) = some (.int i) ↔ toNumber i = some i := by
        simp [eval, Option.bind_eq_some_iff]
      have hnodes : (Json.int i : Json φ).nodes = [.int i] := rfl
      rw [heval, toNumber_eq_self_iff, Literal, hnodes, List.forall_mem_singleton]
      rfl
  | arr xs ih =>
      rw [distinct_arr_iff] at h
      rw [literal_arr_iff]
      have hitems : eval (.arr xs) = some (.arr xs) ↔ evalItems xs = some xs := by
        simp [eval, Option.bind_eq_some_iff]
      rw [hitems, evalItems_eq_self_iff]
      exact forall₂_congr fun x hx => ih x hx (h x hx)
  | obj members ih =>
      obtain ⟨hkeys, hmembers⟩ := distinct_obj_iff.mp h
      rw [literal_obj_iff]
      have hupdate : ∀ {own : List (String × Json φ)}, (Dict.keys own).Nodup →
          Dict.update [] own = own := fun hown => Dict.update_of_disjoint hown (by simp)
      have hown : eval (.obj members) = some (.obj members) ↔
          evalMembers members = some members := by
        simp only [eval, bind, Option.bind_eq_some_iff, pure, Option.some.injEq, obj.injEq]
        constructor
        · rintro ⟨own, hown, heq⟩
          have hnodup : (Dict.keys own).Nodup := by
            rw [keys_evalMembers hown]
            exact hkeys.filter _
          rw [hupdate hnodup] at heq
          rw [hown, heq]
        · exact fun heval => ⟨members, heval, hupdate hkeys⟩
      rw [hown, evalMembers_eq_self_iff]
      exact and_congr_right' (forall₂_congr fun m hm => ih m hm (hmembers m hm))

variable (format) in
/-- A JSON text that stands in a script as an expression, with its value, and what follows. -/
def literal (text : List Char) : Option (Json φ × List Char) := do
  let (v, rest) ← parseValue format (2 * text.length + 1) text
  let v ← v.eval
  return (v, rest)

theorem literal_spells {may : Char → Prop} {v : Json φ} {text : List Char}
    (h : Spells may format v text) {rest : List Char} (hrest : Ends rest) :
    literal format (text ++ rest) = v.eval.map fun value => (value, rest) := by
  have hread := readable v text rest (2 * (text ++ rest).length + 1) h hrest (by omega)
  simp only [literal, hread, bind, Option.bind, pure]
  cases v.eval <;> rfl

/-! ### The text without white space -/

/-- A character in a string literal that escapes no more than it has to. -/
def compactChar (c : Char) : List Char := if Escapable c then escapeChar c else [c]

def compactString (s : String) : List Char := '"' :: (s.toList.flatMap compactChar ++ ['"'])

section Compact

variable (format)

mutual

/-- The text of a value without white space. -/
def compact : Json φ → List Char
  | .null => ['n', 'u', 'l', 'l']
  | .bool true => ['t', 'r', 'u', 'e']
  | .bool false => ['f', 'a', 'l', 's', 'e']
  | .int i => intText i
  | .float q => format.repr q
  | .str s => compactString s
  | .arr xs => '[' :: ([','].intercalate (compactItems xs) ++ [']'])
  | .obj members => '{' :: ([','].intercalate (compactMembers members) ++ ['}'])

/-- The texts of the items. -/
def compactItems : List (Json φ) → List (List Char)
  | [] => []
  | x :: xs => compact x :: compactItems xs

/-- The texts of the members. -/
def compactMembers : List (String × Json φ) → List (List Char)
  | [] => []
  | (k, x) :: members => (compactString k ++ ':' :: compact x) :: compactMembers members

end

end Compact

theorem bodyOf_compactChar (s : List Char) : BodyOf Escapable s (s.flatMap compactChar) := by
  induction s with
  | nil => exact .nil
  | cons c s ih =>
      rw [List.flatMap_cons]
      refine .cons ?_ ih
      unfold compactChar
      by_cases hc : Escapable c
      · rw [if_pos hc]
        exact (escapeOf_escapeChar c).of_may hc
      · rw [if_neg hc]
        have hquote : c ≠ '"' := fun h => hc (Or.inl h)
        have hbackslash : c ≠ '\\' := fun h => hc (Or.inr (Or.inl h))
        have hcontrol : ¬ c.toNat < 32 := fun h => hc (Or.inr (Or.inr (Or.inl h)))
        exact .itself hquote hbackslash (Nat.not_lt.mp hcontrol)

theorem compactItems_eq (xs : List (Json φ)) :
    compactItems format xs = xs.map (compact format) := by
  induction xs with
  | nil => rfl
  | cons x xs ih => rw [compactItems, ih, List.map_cons]

theorem compactMembers_eq (members : List (String × Json φ)) :
    compactMembers format members =
      members.map fun m => compactString m.1 ++ ':' :: compact format m.2 := by
  induction members with
  | nil => rfl
  | cons m members ih => rw [compactMembers, ih, List.map_cons]

/-- Items whose texts stand with commas between them. -/
theorem sequence_intercalate {α : Type} {item : α → List Char → Prop} {close : Char}
    {print : α → List Char} {xs : List α} (h : ∀ x ∈ xs, item x (print x)) :
    Sequence item close xs ([','].intercalate (xs.map print) ++ [close]) := by
  cases xs with
  | nil => exact .empty gap_nil
  | cons x xs =>
      have hfollows : ∀ x : α, (∀ y ∈ xs, item y (print y)) →
          ∃ others, [','].intercalate ((x :: xs).map print) ++ [close] = print x ++ others ∧
            Follows item close xs others := by
        clear h
        induction xs with
        | nil => exact fun x _ => ⟨[close], by simp, .close gap_nil⟩
        | cons y xs ih =>
            intro x hitems
            obtain ⟨hy, hxs⟩ := List.forall_mem_cons.mp hitems
            obtain ⟨others, heq, hothers⟩ := ih y hxs
            refine ⟨',' :: (print y ++ others), ?_, .next gap_nil gap_nil hy hothers⟩
            rw [List.map_cons] at heq
            rw [List.map_cons, List.map_cons, List.intercalate_cons_cons, List.append_assoc,
              List.append_assoc, heq]
            rfl
      obtain ⟨hx, hxs⟩ := List.forall_mem_cons.mp h
      obtain ⟨others, heq, hothers⟩ := hfollows x hxs
      rw [heq]
      exact .items gap_nil hx hothers

/-- It is a text of the value. -/
theorem spells_compact {v : Json φ} (h : ∀ q ∈ v.floats, format.Lawful q) :
    Spells Escapable format v (compact format v) := by
  induction v using tree_induction with
  | null => exact .null
  | bool b =>
      cases b with
      | true => exact .true
      | false => exact .false
  | int i => exact .int i
  | float q =>
      obtain ⟨hliteral, hvalue⟩ := h q (List.mem_singleton_self q)
      have hspells : Spells Escapable format (.float (format.ofText (format.repr q)))
          (format.repr q) := .float hliteral
      rwa [hvalue] at hspells
  | str s => exact .str (bodyOf_compactChar s.toList)
  | arr xs ih =>
      rw [floats, floatsItems_eq] at h
      rw [compact, compactItems_eq]
      refine .arr (sequence_intercalate fun x hx => ih x hx ?_)
      exact fun q hq => h q (List.mem_flatMap.mpr ⟨x, hx, hq⟩)
  | obj members ih =>
      rw [floats, floatsMembers_eq] at h
      rw [compact, compactMembers_eq]
      refine .obj (sequence_intercalate fun m hm => ?_)
      have hvalue := ih m hm fun q hq => h q (List.mem_flatMap.mpr ⟨m, hm, hq⟩)
      have htext : compactString m.1 ++ ':' :: compact format m.2 =
          '"' :: (m.1.toList.flatMap compactChar ++ '"' ::
            ([] ++ ':' :: ([] ++ compact format m.2))) := by
        simp [compactString]
      rw [htext]
      exact .intro (bodyOf_compactChar m.1.toList) gap_nil gap_nil hvalue

end Json

end Cositos
