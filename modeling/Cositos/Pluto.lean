/-
The Pluto extension of the Julia port (`CositosPlutoExt.jl`): a widget as a page, whose inline
script gets the widget as JSON texts.
-/
import Cositos.Base64
import Cositos.JsonScripts

namespace Cositos

namespace Pluto

open JsonText ScriptData

variable {φ : Type}

/-! ### The widget -/

/-- `DEFAULT_RUNTIME_URL`. -/
def defaultRuntimeUrl : String := "https://cdn.jsdelivr.net/npm/@cositos/front/src/index.js"

/-- `PlutoWidget`.  The state is a `Dict`, as are the dicts inside of it. -/
structure PlutoWidget (φ : Type) where
  esm : String
  state : List (String × Json φ) := []
  css : String := ""
  runtimeUrl : String := defaultRuntimeUrl
  distinct : (Json.obj state).Distinct

/-- `Cositos.Pluto.html`, from the text of its module. -/
def html (esm : String) (value : String := "") (css : String := "")
    (runtimeUrl : String := defaultRuntimeUrl) : PlutoWidget φ where
  esm
  state := [("value", .str value)]
  css
  runtimeUrl
  distinct := Json.distinct_obj_iff.mpr
    ⟨List.nodup_singleton _, List.forall_mem_singleton.mpr fun _ hnode _ heq => by
      cases List.mem_singleton.mp hnode
      cases heq⟩

/-- `local_front_runtime_url`, from the bytes of the bundle. -/
def localFrontRuntimeUrl (bundle : List UInt8) : String :=
  "data:text/javascript;base64," ++ String.ofList (Base64.encode bundle)

/-- `effective_url`: the default stands for the local bundle. -/
def PlutoWidget.effectiveUrl (bundle : List UInt8) (w : PlutoWidget φ) : String :=
  if w.runtimeUrl = defaultRuntimeUrl then localFrontRuntimeUrl bundle else w.runtimeUrl

/-! ### The page -/

/-- The script up to the url. -/
def beforeUrl : String :=
  "\nconst container = document.currentScript.parentElement;\n" ++
    "(async () => \x7b\n" ++
    "  const \x7b Model, PlutoChannel, loadWidget, renderWidget \x7d = await import("

/-- From the url to the state. -/
def beforeState : String := ");\n  const state = "

/-- From the state to the module. -/
def beforeEsm : String := ";\n  const esm = "

/-- From the module to the style sheet. -/
def beforeCss : String := ";\n  const css = "

/-- The script after the style sheet. -/
def afterCss : String :=
  ";\n  if (css) \x7b const s = document.createElement(\"style\"); s.textContent = css; " ++
    "container.appendChild(s); \x7d\n" ++
    "  const channel = new PlutoChannel(container, state);\n" ++
    "  const model = new Model(state, channel);\n" ++
    "  const view = document.createElement(\"div\");\n" ++
    "  container.appendChild(view);\n" ++
    "  await renderWidget(await loadWidget(esm), \x7b model, el: view \x7d);\n" ++
    "\x7d)();\n"

/-- The content of the script element. -/
def scriptText (url state esm css : String) : String :=
  beforeUrl ++ url ++ beforeState ++ state ++ beforeEsm ++ esm ++ beforeCss ++ css ++ afterCss

/-- The script of a widget; `json` is `JSON.json`. -/
def PlutoWidget.script (json : Json φ → String) (bundle : List UInt8) (w : PlutoWidget φ) :
    String :=
  scriptText (json (.str (w.effectiveUrl bundle))) (json (.obj w.state)) (json (.str w.esm))
    (json (.str w.css))

/-- `show(io, MIME"text/html"(), w)`. -/
def PlutoWidget.showHtml (json : Json φ → String) (bundle : List UInt8) (w : PlutoWidget φ) :
    String :=
  "<div>\n<script>" ++ w.script json bundle ++ "</script>\n</div>\n"

/-! ### What the script binds -/

/-- The constants of the script. -/
structure Constants (φ : Type) where
  state : Json φ
  esm : Json φ
  css : Json φ

/-- The text of the script up to here. -/
def expect (piece : String) (text : List Char) : Option (List Char) :=
  if piece.toList.isPrefixOf text then some (text.drop piece.toList.length) else none

/-- A piece of the script and the expression after it. -/
def expression (format : FloatText φ) (piece : String) (text : List Char) :
    Option (Json φ × List Char) := do
  let text ← expect piece text
  Json.literal format text

/-- A script of these pieces, read from top to bottom: what its constants are bound to. -/
def evaluateBetween (first second third fourth fifth : String) (format : FloatText φ)
    (text : List Char) : Option (Constants φ) := do
  let (_, text) ← expression format first text
  let (state, text) ← expression format second text
  let (esm, text) ← expression format third text
  let (css, text) ← expression format fourth text
  let text ← expect fifth text
  if text.isEmpty then return { state, esm, css } else none

/-- What the constants of the script are bound to. -/
def evaluate (format : FloatText φ) (text : List Char) : Option (Constants φ) :=
  evaluateBetween beforeUrl beforeState beforeEsm beforeCss afterCss format text

/-- The script element of the page holds the whole script and is never escaped, and the script
binds its constants to what the widget has. -/
structure PlutoWidget.Faithful (format : FloatText φ) (json : Json φ → String)
    (bundle : List UInt8) (w : PlutoWidget φ) : Prop where
  element : inlineScript (w.showHtml json bundle).toList =
    some { content := (w.script json bundle).toList, escaped := false,
           rest := "\n</div>\n".toList }
  constants : evaluate format (w.script json bundle).toList =
    some { state := .obj w.state, esm := .str w.esm, css := .str w.css }

/-- The values that are printed. -/
def PlutoWidget.printed (bundle : List UInt8) (w : PlutoWidget φ) : List (Json φ) :=
  [.str (w.effectiveUrl bundle), .obj w.state, .str w.esm, .str w.css]

/-- The strings of a widget, and the keys of its state. -/
def PlutoWidget.strings (w : PlutoWidget φ) : List String :=
  w.runtimeUrl :: w.esm :: w.css :: (Json.obj w.state).strings

/-! ### The element -/

theorem not_mem_literal {c : Char} {text : List Char} (h : c ∉ text) :
    c ∉ (String.ofList text).toList := by
  rwa [String.toList_ofList]

theorem not_mem_append {c : Char} {first second : String} (hfirst : c ∉ first.toList)
    (hsecond : c ∉ second.toList) : c ∉ (first ++ second).toList := by
  rw [String.toList_append, List.mem_append, not_or]
  exact ⟨hfirst, hsecond⟩

theorem lt_not_mem_beforeUrl : '<' ∉ beforeUrl.toList :=
  not_mem_append (not_mem_append (not_mem_literal (by decide)) (not_mem_literal (by decide)))
    (not_mem_literal (by decide))

theorem lt_not_mem_between :
    ∀ piece ∈ [beforeState, beforeEsm, beforeCss], '<' ∉ piece.toList :=
  List.forall_mem_cons.mpr ⟨not_mem_literal (by decide),
    List.forall_mem_cons.mpr ⟨not_mem_literal (by decide),
      List.forall_mem_singleton.mpr (not_mem_literal (by decide))⟩⟩

theorem lt_not_mem_afterCss : '<' ∉ afterCss.toList := by
  refine not_mem_append (not_mem_append (not_mem_append (not_mem_append (not_mem_append
    (not_mem_append (not_mem_append ?_ ?_) ?_) ?_) ?_) ?_) ?_) ?_
  all_goals exact not_mem_literal (by decide)

theorem inlineScript_page (content rest : List Char) :
    inlineScript ("<div>\n<script>".toList ++ (content ++ (closeTag ++ rest))) =
      scan .data false [] (content ++ (closeTag ++ rest)) := by
  have hopen : "<div>\n<script>".toList =
      ['<', 'd', 'i', 'v', '>', '\n', '<', 's', 'c', 'r', 'i', 'p', 't', '>'] :=
    String.toList_ofList
  rw [hopen]
  rfl

theorem toList_script (json : Json φ → String) (bundle : List UInt8) (w : PlutoWidget φ) :
    (w.script json bundle).toList =
      beforeUrl.toList ++ ((json (.str (w.effectiveUrl bundle))).toList ++ (beforeState.toList ++
        ((json (.obj w.state)).toList ++ (beforeEsm.toList ++ ((json (.str w.esm)).toList ++
          (beforeCss.toList ++ ((json (.str w.css)).toList ++ afterCss.toList))))))) := by
  simp only [PlutoWidget.script, scriptText, String.toList_append, List.append_assoc]

theorem toList_append_append {first second third : String} {text : List Char}
    (h : third.toList = text) :
    (first ++ second ++ third).toList = first.toList ++ (second.toList ++ text) := by
  rw [String.toList_append, String.toList_append, List.append_assoc, h]

theorem toList_showHtml (json : Json φ → String) (bundle : List UInt8) (w : PlutoWidget φ) :
    (w.showHtml json bundle).toList = "<div>\n<script>".toList ++
      ((w.script json bundle).toList ++ (closeTag ++ "\n</div>\n".toList)) := by
  have hclose : "</script>\n</div>\n".toList = closeTag ++ "\n</div>\n".toList := by
    have hrest : "\n</div>\n".toList = ['\n', '<', '/', 'd', 'i', 'v', '>', '\n'] :=
      String.toList_ofList
    have hall : "</script>\n</div>\n".toList = ['<', '/', 's', 'c', 'r', 'i', 'p', 't', '>',
        '\n', '<', '/', 'd', 'i', 'v', '>', '\n'] := String.toList_ofList
    refine hall.trans ?_
    rw [hrest]
    rfl
  exact toList_append_append hclose

theorem element_iff (json : Json φ → String) (bundle : List UInt8) (w : PlutoWidget φ) :
    inlineScript (w.showHtml json bundle).toList =
        some { content := (w.script json bundle).toList, escaped := false,
               rest := "\n</div>\n".toList } ↔
      breaks endsName (w.script json bundle).toList = false := by
  rw [toList_showHtml, inlineScript_page]
  exact scan_content_iff

variable {format : FloatText φ} {json : Json φ → String} {bundle : List UInt8} {w : PlutoWidget φ}

/-- The script breaks its element exactly if a string of a printed value does. -/
theorem breaks_script_iff
    (hjson : ∀ v ∈ w.printed bundle, Json.Spells Json.Escapable format v (json v).toList) :
    breaks endsName (w.script json bundle).toList = true ↔
      ∃ v ∈ w.printed bundle, ∃ s ∈ v.strings, breaks Json.endsVisibly s.toList = true := by
  obtain ⟨hstate, hbetween⟩ := List.forall_mem_cons.mp lt_not_mem_between
  obtain ⟨hesm, hbetween⟩ := List.forall_mem_cons.mp hbetween
  have hcss := List.forall_mem_singleton.mp hbetween
  simp only [PlutoWidget.printed, List.forall_mem_cons] at hjson
  obtain ⟨hurlText, hstateText, hesmText, hcssText, -⟩ := hjson
  have hscript := (Json.breaksIf_false lt_not_mem_beforeUrl).append <|
    (Json.spells_breaksIf hurlText).append <| (Json.breaksIf_false hstate).append <|
    (Json.spells_breaksIf hstateText).append <| (Json.breaksIf_false hesm).append <|
    (Json.spells_breaksIf hesmText).append <| (Json.breaksIf_false hcss).append <|
    (Json.spells_breaksIf hcssText).append <| Json.breaksIf_false lt_not_mem_afterCss
  rw [toList_script]
  refine hscript.whole.trans ?_
  simp only [PlutoWidget.printed, List.exists_mem_cons_iff, List.not_mem_nil, false_or, or_false,
    false_and, exists_false]

/-! ### The constants -/

theorem expect_append (piece : String) (rest : List Char) :
    expect piece (piece.toList ++ rest) = some rest := by
  rw [expect, if_pos (List.isPrefixOf_iff_prefix.mpr (List.prefix_append _ _)), List.drop_left]

theorem head_literal {c : Char} {text : List Char} :
    (String.ofList (c :: text)).toList.head? = some c := by
  rw [String.toList_ofList, List.head?_cons]

theorem head_append {c : Char} {first second : String} (h : first.toList.head? = some c) :
    (first ++ second).toList.head? = some c := by
  rw [String.toList_append, List.head?_append, h]
  rfl

theorem head_pieces : ∀ piece ∈ [beforeState, beforeEsm, beforeCss, afterCss],
    piece.toList.head? = some ')' ∨ piece.toList.head? = some ';' := by
  have hafter : afterCss.toList.head? = some ';' :=
    head_append (head_append (head_append (head_append (head_append (head_append (head_append
      head_literal))))))
  simp only [List.mem_cons, List.not_mem_nil, or_false]
  rintro piece (rfl | rfl | rfl | rfl)
  · exact Or.inl head_literal
  · exact Or.inr head_literal
  · exact Or.inr head_literal
  · exact Or.inr hafter

/-- No number goes on into what follows a text in the script. -/
theorem ends_pieces : ∀ piece ∈ [beforeState, beforeEsm, beforeCss, afterCss],
    ∀ rest, Ends (piece.toList ++ rest) := by
  intro piece hpiece rest c tail heq
  have hhead : ∀ d, piece.toList.head? = some d → c = d := by
    intro d hd
    have happend : (piece.toList ++ rest).head? = some d := by
      rw [List.head?_append, hd]
      rfl
    rw [heq, List.head?_cons, Option.some.injEq] at happend
    exact happend
  rcases head_pieces piece hpiece with hd | hd
  · rw [hhead _ hd]
    decide
  · rw [hhead _ hd]
    decide

theorem expression_spells {may : Char → Prop} {next : String}
    (hnext : ∀ rest, Ends (next.toList ++ rest)) {v : Json φ} {text : List Char}
    (h : Json.Spells may format v text) (piece : String) (rest : List Char) :
    expression format piece (piece.toList ++ (text ++ (next.toList ++ rest))) =
      v.eval.map fun value => (value, next.toList ++ rest) := by
  rw [expression, expect_append]
  exact Json.literal_spells h (hnext rest)

/-- The texts between the pieces are what the constants are bound to. -/
theorem evaluateBetween_spells {may : Char → Prop} {first second third fourth fifth : String}
    (hends : ∀ piece ∈ [second, third, fourth, fifth], ∀ rest, Ends (piece.toList ++ rest))
    {url esm css : String} {state : Json φ} {urlText stateText esmText cssText : List Char}
    (hurl : Json.Spells may format (.str url) urlText)
    (hstate : Json.Spells may format state stateText)
    (hesm : Json.Spells may format (.str esm) esmText)
    (hcss : Json.Spells may format (.str css) cssText) :
    evaluateBetween first second third fourth fifth format
        (first.toList ++ (urlText ++ (second.toList ++ (stateText ++ (third.toList ++ (esmText ++
          (fourth.toList ++ (cssText ++ fifth.toList)))))))) =
      state.eval.map fun state => { state, esm := .str esm, css := .str css } := by
  simp only [List.forall_mem_cons] at hends
  obtain ⟨hsecond, hthird, hfourth, hfifth, -⟩ := hends
  have hstr : ∀ s, (Json.str s : Json φ).eval = some (.str s) := fun _ => rfl
  have hcssRead := expression_spells hfifth hcss fourth []
  have hend := expect_append fifth []
  rw [List.append_nil] at hcssRead hend
  cases hvalue : state.eval with
  | none =>
      simp only [evaluateBetween, expression_spells hsecond hurl, expression_spells hthird hstate,
        hstr, hvalue, Option.map_some, Option.map_none, Option.bind_eq_bind, Option.bind_some,
        Option.bind_none]
  | some value =>
      simp only [evaluateBetween, expression_spells hsecond hurl, expression_spells hthird hstate,
        expression_spells hfourth hesm, hcssRead, hend, hstr, hvalue, Option.map_some,
        Option.bind_eq_bind, Option.bind_some]
      rfl

/-- The script binds what the texts evaluate to. -/
theorem evaluate_script
    (hjson : ∀ v ∈ w.printed bundle, Json.Spells Json.Escapable format v (json v).toList) :
    evaluate format (w.script json bundle).toList =
      (Json.obj w.state).eval.map fun state =>
        { state, esm := .str w.esm, css := .str w.css } := by
  simp only [PlutoWidget.printed, List.forall_mem_cons] at hjson
  obtain ⟨hurl, hstate, hesm, hcss, -⟩ := hjson
  rw [toList_script]
  exact evaluateBetween_spells ends_pieces hurl hstate hesm hcss

/-! ### Faithful pages -/

theorem breaks_eq_false {goesOn : Char → Bool} {text : List Char} (h : '<' ∉ text) :
    breaks goesOn text = false := by
  have happend : breaks goesOn (text ++ []) = breaks goesOn [] := breaks_append h []
  rwa [List.append_nil] at happend

/-- The url of the local bundle breaks the script as little as the default url, for which it
stands. -/
theorem breaks_effectiveUrl (bundle : List UInt8) (w : PlutoWidget φ) :
    breaks Json.endsVisibly (w.effectiveUrl bundle).toList =
      breaks Json.endsVisibly w.runtimeUrl.toList := by
  unfold PlutoWidget.effectiveUrl
  by_cases hurl : w.runtimeUrl = defaultRuntimeUrl
  · have hdefault : '<' ∉ defaultRuntimeUrl.toList := not_mem_literal (by decide)
    have hlocal : '<' ∉ (localFrontRuntimeUrl bundle).toList :=
      not_mem_append (not_mem_literal (by decide))
        (not_mem_literal (Base64.lt_not_mem_encode bundle))
    rw [if_pos hurl, hurl, breaks_eq_false hlocal, breaks_eq_false hdefault]
  · rw [if_neg hurl]

theorem exists_printed_iff :
    (∃ v ∈ w.printed bundle, ∃ s ∈ v.strings, breaks Json.endsVisibly s.toList = true) ↔
      ∃ s ∈ w.strings, breaks Json.endsVisibly s.toList = true := by
  have hstr : ∀ s, (Json.str s : Json φ).strings = [s] := fun _ => rfl
  simp only [PlutoWidget.printed, PlutoWidget.strings, List.exists_mem_cons_iff, hstr,
    breaks_effectiveUrl, List.not_mem_nil, false_and, exists_false, or_false]
  exact or_congr_right or_rotate

/-- The page keeps the script whole and the script has the values of the widget, exactly if no
string of the widget breaks the script and the state is a literal for itself. -/
theorem show_faithful_iff (format : FloatText φ) (json : Json φ → String) (bundle : List UInt8)
    (w : PlutoWidget φ)
    (hjson : ∀ v ∈ w.printed bundle, Json.Spells Json.Escapable format v (json v).toList) :
    w.Faithful format json bundle ↔
      (∀ s ∈ w.strings, breaks Json.endsVisibly s.toList = false) ∧ (Json.obj w.state).Literal := by
  have helement : breaks endsName (w.script json bundle).toList = false ↔
      ∀ s ∈ w.strings, breaks Json.endsVisibly s.toList = false := by
    rw [← Bool.not_eq_true, breaks_script_iff hjson, exists_printed_iff]
    simp only [not_exists, not_and, Bool.not_eq_true]
  have hconstants : evaluate format (w.script json bundle).toList =
      some { state := .obj w.state, esm := .str w.esm, css := .str w.css } ↔
        (Json.obj w.state).Literal := by
    rw [evaluate_script hjson, ← Json.eval_eq_self_iff w.distinct]
    simp only [Option.map_eq_some_iff, Constants.mk.injEq, and_true, exists_eq_right]
  rw [← helement, ← hconstants, ← element_iff]
  exact ⟨fun h => ⟨h.element, h.constants⟩, fun h => ⟨h.1, h.2⟩⟩

end Pluto

namespace PlutoWitness

open JsonText ScriptData Pluto

/-- Floats that are their own literals. -/
def format : FloatText String where
  repr := String.toList
  ofText := String.ofList

/-- A printer without white space. -/
def json (v : Json String) : String := String.ofList (Json.compact format v)

def bold : PlutoWidget String := html "export default \x7b\x7d" "<b>1 < 2</b>"

def embedded : PlutoWidget String := html "export default \x7b\x7d" "<script>f()</script>"

theorem spells_html {esm value css runtimeUrl : String} :
    ∀ v ∈ (html esm value css runtimeUrl).printed [],
      Json.Spells Json.Escapable format v (json v).toList := by
  have hspells : ∀ v : Json String, v.floats = [] →
      Json.Spells Json.Escapable format v (json v).toList := by
    intro v hfloats
    rw [json, String.toList_ofList]
    refine Json.spells_compact fun q hq => ?_
    rw [hfloats] at hq
    cases hq
  simp only [PlutoWidget.printed, List.forall_mem_cons, List.not_mem_nil, false_implies,
    implies_true, and_true]
  exact ⟨hspells _ rfl, hspells _ rfl, hspells _ rfl, hspells _ rfl⟩

end PlutoWitness

namespace Pluto

open PlutoWitness ScriptData

theorem show_faithful_iff_bold : bold.Faithful format json [] := by
  refine (show_faithful_iff format json [] bold spells_html).mpr ⟨?_, ?_⟩
  · have hstrings : bold.strings = [defaultRuntimeUrl, "export default \x7b\x7d", "", "value",
        "<b>1 < 2</b>"] := rfl
    rw [hstrings]
    simp only [List.forall_mem_cons, List.not_mem_nil, false_implies, implies_true, and_true]
    refine ⟨breaks_eq_false (not_mem_literal (by decide)),
      breaks_eq_false (not_mem_literal (by decide)), rfl,
      breaks_eq_false (not_mem_literal (by decide)), ?_⟩
    have hvalue : "<b>1 < 2</b>".toList =
        ['<', 'b', '>', '1', ' ', '<', ' ', '2', '<', '/', 'b', '>'] := String.toList_ofList
    rw [hvalue]
    decide
  · have hstr : (Json.str "<b>1 < 2</b>" : Json String).Literal :=
      List.forall_mem_singleton.mpr trivial
    exact Json.literal_obj_iff.mpr ⟨by decide, List.forall_mem_singleton.mpr hstr⟩

/-- HTML with a script of its own cuts the script short. -/
theorem html_cuts_script :
    (∀ v ∈ embedded.printed [], Json.Spells Json.Escapable format v (json v).toList) ∧
      ¬ embedded.Faithful format json [] := by
  refine ⟨spells_html, fun h => ?_⟩
  have hkept := (element_iff json [] embedded).mp h.element
  have hbreaks : breaks endsName (embedded.script json []).toList = true := by
    refine (breaks_script_iff spells_html).mpr
      ⟨.obj embedded.state, ?_, "<script>f()</script>", ?_, ?_⟩
    · exact List.mem_cons_of_mem _ List.mem_cons_self
    · exact List.mem_cons_of_mem _ List.mem_cons_self
    · have hvalue : "<script>f()</script>".toList = ['<', 's', 'c', 'r', 'i', 'p', 't', '>', 'f',
          '(', ')', '<', '/', 's', 'c', 'r', 'i', 'p', 't', '>'] := String.toList_ofList
      rw [hvalue]
      decide
  rw [hbreaks] at hkept
  cases hkept

end Pluto

end Cositos
