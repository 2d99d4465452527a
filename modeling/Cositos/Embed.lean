/-
Static export (`embed.py`): a document with the view identity merged in, printed into script
elements that no text of the document can end, and read back out of the page.
-/
import Cositos.JsonValues
import Cositos.Scripts
import Cositos.Redump

namespace Cositos

namespace Embed

open Value Protocol Scripts

/-- `STATE_MIMETYPE`. -/
def stateMimetype : String := "application/vnd.jupyter.widget-state+json"

/-- `VIEW_MIMETYPE`. -/
def viewMimetype : String := "application/vnd.jupyter.widget-view+json"

/-! ### The escape -/

/-- A letter of a pattern against a character, under `re.IGNORECASE`. -/
def ignoresCase (letter c : Char) : Bool :=
  c.toLower = letter || (letter = 's' && c = 'ſ') || (letter = 'i' && (c = 'İ' || c = 'ı'))

/-- The text begins with a match of the word. -/
def matchesWord : List Char → List Char → Bool
  | [], _ => true
  | _ :: _, [] => false
  | letter :: word, c :: text => ignoresCase letter c && matchesWord word text

/-- `(script|/script|!--)`. -/
def breaksOut (text : List Char) : Bool :=
  breakouts.any fun word => matchesWord word text

/-- `_SCRIPT_ESCAPE.sub`; no other match begins inside the group, which stays as it is. -/
def escapeChars : List Char → List Char
  | [] => []
  | c :: text =>
      if c = '<' ∧ breaksOut text = true then
        '\\' :: 'u' :: '0' :: '0' :: '3' :: 'c' :: escapeChars text
      else c :: escapeChars text

/-- `_escape_script`. -/
def escapeScript (text : String) : String := String.ofList (escapeChars text.toList)

/-! ### The view identity -/

/-- `view_identity` of whatever a record holds as its version. -/
def viewIdentity (version : Value) : Bindings :=
  [(.str "_view_module", .str "anywidget"),
    (.str "_view_name", .str "AnyView"),
    (.str "_view_module_version", version),
    (.str "_view_count", .none)]

/-- The record with view identity in its state. -/
def enrichRecord : Value → Except PyError Value
  | .dict record =>
      let version := get record "model_module_version" (.str anywidgetModuleVersion)
      match get record "state" (.dict []) with
      | .dict state =>
          .ok (.dict (Dict.set record (.str "state")
            (.dict (Dict.update (viewIdentity version) state))))
      | _ => .error .typeError
  | _ => .error .attributeError

/-- One turn of the loop in `with_view_identity`. -/
def enrichItem (item : Key × Value) : Except PyError (Key × Value) := do
  let record ← enrichRecord item.2
  return (item.1, record)

/-- `with_view_identity`. -/
def withViewIdentity (document : Bindings) : Except PyError Bindings :=
  match get document "state" (.dict []) with
  | .dict records => do
      let enriched ← records.mapM enrichItem
      return Dict.set document (.str "state") (.dict enriched)
  | _ => .error .attributeError

example (version : String) : viewIdentity (.str version) = Protocol.viewIdentity version := rfl

/-! ### The snippet -/

/-- A block of the snippet, on lines of its own between its tags. -/
def block (mimetype text : String) : String :=
  "<script type=\"" ++ mimetype ++ "\">\n" ++ text ++ "\n</script>"

/-- `<script src="{url}" crossorigin="anonymous"></script>`. -/
def loaderScript (url : String) : String :=
  "<script src=\"" ++ url ++ "\" crossorigin=\"anonymous\"></script>"

/-- `_REQUIREJS_URL`. -/
def requirejsUrl : String :=
  "https://cdnjs.cloudflare.com/ajax/libs/require.js/2.3.4/require.min.js"

/-- `_EMBED_AMD_URL.format(v=version)`. -/
def embedAmdUrl (version : String) : String :=
  "https://cdn.jsdelivr.net/npm/@jupyter-widgets/html-manager@" ++ version ++ "/dist/embed-amd.js"

/-- `_EMBED_URL.format(v=version)`. -/
def embedUrl (version : String) : String :=
  "https://cdn.jsdelivr.net/npm/@jupyter-widgets/html-manager@" ++ version ++ "/dist/embed.js"

/-- `_loader`. -/
def loader (requirejs : Bool) (version : String) : String :=
  let script := loaderScript (if requirejs then embedAmdUrl version else embedUrl version)
  if requirejs then loaderScript requirejsUrl ++ "\n" ++ script else script

/-- What a view script says: `mid` is a key of the document or an id that was asked for. -/
def viewModel (mid : Value) : Value :=
  .dict [(.str "version_major", .int 2), (.str "version_minor", .int 0), (.str "model_id", mid)]

/-- One of the `view_blocks`. -/
def viewBlock (format : FloatText ℚ) (mid : Value) : Except PyError String := do
  let text ← (viewModel mid).dumps format none
  return block viewMimetype (escapeScript text)

/-- The ids to render: every key of the document, unless some are asked for. -/
def modelIds (document : Bindings) : Option (List String) → List Value
  | some views => views.map Value.str
  | none => (Dict.keys (get document "state" (.dict [])).bindings).map Key.toValue

/-- `embed_snippet`. -/
def embedSnippet (format : FloatText ℚ) (document : Bindings) (views : Option (List String))
    (requirejs : Bool := true) (htmlManagerVersion : String := "1") : Except PyError String := do
  let document ← withViewIdentity document
  let text ← (Value.dict document).dumps format (some 2)
  let viewBlocks ← (modelIds document views).mapM (viewBlock format)
  return loader requirejs htmlManagerVersion ++ "\n" ++
    block stateMimetype (escapeScript text) ++ "\n" ++ "\n".intercalate viewBlocks ++ "\n"

/-! ### What the escape does -/

theorem matchesWord_of_begins {word text : List Char} (h : begins word text = true) :
    matchesWord word text = true := by
  induction word generalizing text with
  | nil => rfl
  | cons letter word ih =>
      cases text with
      | nil => simp [begins] at h
      | cons c text =>
          simp only [begins, List.length_cons, List.take_succ_cons, List.map_cons,
            List.cons.injEq, decide_eq_true_eq] at h
          obtain ⟨hc, hword⟩ := h
          simp [matchesWord, ignoresCase, hc, ih (by simpa [begins] using hword)]

theorem ignoresCase_backslash {word : List Char} (hword : word ∈ breakouts) :
    ∀ letter ∈ word, ignoresCase letter '\\' = false := by
  have hall : (breakouts.all fun word => word.all fun letter => !ignoresCase letter '\\') = true :=
    rfl
  intro letter hletter
  have h := List.all_eq_true.mp (List.all_eq_true.mp hall word hword) letter hletter
  simpa using h

/-- The escape makes no match. -/
theorem matchesWord_escapeChars {word : List Char}
    (hword : ∀ letter ∈ word, ignoresCase letter '\\' = false) {text : List Char}
    (h : matchesWord word (escapeChars text) = true) : matchesWord word text = true := by
  induction word generalizing text with
  | nil => rfl
  | cons letter word ih =>
      obtain ⟨hletter, hword⟩ := List.forall_mem_cons.mp hword
      cases text with
      | nil => simp [escapeChars, matchesWord] at h
      | cons c text =>
          rw [escapeChars] at h
          split_ifs at h
          · rw [matchesWord, hletter] at h
            cases h
          · rw [matchesWord, Bool.and_eq_true] at h ⊢
            exact ⟨h.1, ih hword h.2⟩

/-- Text that was escaped is safe inside a script element. -/
theorem safe_escapeChars (text : List Char) : Safe (escapeChars text) := by
  intro before after heq word hword
  induction text generalizing before with
  | nil => simp [escapeChars] at heq
  | cons c text ih =>
      rw [escapeChars] at heq
      split_ifs at heq with hbreaks
      · have hescape : ['\\', 'u', '0', '0', '3', 'c'] ++ escapeChars text =
            before ++ '<' :: after := heq
        obtain ⟨before', heq'⟩ := split_of_not_mem (by decide) hescape
        exact ih before' heq'
      · cases before with
        | nil =>
            obtain ⟨rfl, rfl⟩ := List.cons.inj heq
            rw [Bool.eq_false_iff]
            intro hbegins
            apply hbreaks
            refine ⟨rfl, List.any_eq_true.mpr ⟨word, hword, ?_⟩⟩
            exact matchesWord_escapeChars (ignoresCase_backslash hword)
              (matchesWord_of_begins hbegins)
        | cons d before =>
            rw [List.cons_append] at heq
            exact ih before (List.cons.inj heq).2

/-- The escape puts escapes for some of the `<`. -/
theorem escapes_escapeChars (text : List Char) : JsonText.Escapes text (escapeChars text) := by
  induction text with
  | nil => exact .nil
  | cons c text ih =>
      rw [escapeChars]
      split_ifs with hbreaks
      · rw [hbreaks.1]
        exact .escape ih
      · exact .keep c ih

/-! ### The scripts of the snippet -/

/-- What the tag of a block says. -/
def tagText (mimetype : String) : List Char := ("script type=\"" ++ mimetype ++ "\"").toList

/-- The content of a block. -/
def content (text : String) : List Char := '\n' :: escapeChars text.toList ++ ['\n']

theorem safe_content (text : String) : Safe (content text) := (safe_escapeChars text.toList).lines

theorem not_mem_around {c : Char} {before middle after : String} (hbefore : c ∉ before.toList)
    (hmiddle : c ∉ middle.toList) (hafter : c ∉ after.toList) :
    c ∉ (before ++ middle ++ after).toList := by
  simp [hbefore, hmiddle, hafter]

theorem scripts_block {mimetype : String} (hmimetype : '>' ∉ mimetype.toList) (text : String)
    (rest : List Char) :
    scripts .outside ((block mimetype (escapeScript text)).toList ++ rest) =
      (tagText mimetype, content text) :: scripts .outside rest := by
  have hattributes : '>' ∉ (" type=\"" ++ mimetype ++ "\"").toList :=
    not_mem_around (by decide) hmimetype (by decide)
  have hcontent : ("\n" ++ escapeScript text ++ "\n").toList = content text := by
    have hescape : (escapeScript text).toList = escapeChars text.toList := String.toList_ofList
    rw [String.toList_append, String.toList_append, hescape]
    rfl
  have hblock : block mimetype (escapeScript text) =
      "<script" ++ (" type=\"" ++ mimetype ++ "\"") ++ ">" ++
        ("\n" ++ escapeScript text ++ "\n") ++ "</script>" := by
    have hlines : block mimetype (escapeScript text) =
        ("<script" ++ " type=\"") ++ mimetype ++ ("\"" ++ ">" ++ "\n") ++ escapeScript text ++
          ("\n" ++ "</script>") := rfl
    rw [hlines]
    simp only [String.append_assoc]
  have htag : tagText mimetype =
      "script".toList ++ (" type=\"" ++ mimetype ++ "\"").toList := by
    have hline : tagText mimetype = ("script" ++ " type=\"" ++ mimetype ++ "\"").toList := rfl
    rw [hline, ← String.toList_append, ← String.append_assoc, ← String.append_assoc]
  rw [hblock, scripts_elementText hattributes (by rw [hcontent]; exact safe_content text), hcontent,
    htag]

/-- What the tag of a loader script says. -/
def loaderTag (url : String) : List Char :=
  "script".toList ++ (" src=\"" ++ url ++ "\" crossorigin=\"anonymous\"").toList

theorem loaderTag_ne (url mimetype : String) : loaderTag url ≠ tagText mimetype := by
  have hsrc : loaderTag url =
      "script".toList ++ (" src=\"" ++ url ++ "\" crossorigin=\"anonymous\"").toList := rfl
  have htype : tagText mimetype = ("script" ++ " type=\"" ++ mimetype ++ "\"").toList := rfl
  intro heq
  simp [hsrc, htype] at heq

theorem scripts_loaderScript {url : String} (hurl : '>' ∉ url.toList) (rest : List Char) :
    scripts .outside ((loaderScript url).toList ++ rest) =
      (loaderTag url, []) :: scripts .outside rest := by
  have hattributes : '>' ∉ (" src=\"" ++ url ++ "\" crossorigin=\"anonymous\"").toList :=
    not_mem_around (by decide) hurl (by decide)
  have hempty : Safe "".toList := by
    intro before after heq
    simp at heq
  have hscript : loaderScript url =
      "<script" ++ (" src=\"" ++ url ++ "\" crossorigin=\"anonymous\"") ++ ">" ++ "" ++
        "</script>" := by
    have hline : loaderScript url =
        ("<script" ++ " src=\"") ++ url ++
          ("\" crossorigin=\"anonymous\"" ++ ">" ++ "" ++ "</script>") := rfl
    rw [hline]
    simp only [String.append_assoc]
  rw [hscript]
  exact scripts_elementText hattributes hempty rest

/-- The scripts of the loader. -/
theorem scripts_loader {version : String} (hversion : '>' ∉ version.toList) (requirejs : Bool) :
    ∃ urls : List String, ∀ rest,
      scripts .outside ((loader requirejs version).toList ++ rest) =
        urls.map (fun url => (loaderTag url, [])) ++ scripts .outside rest := by
  cases requirejs with
  | false =>
      have hurl : '>' ∉ (embedUrl version).toList :=
        not_mem_around (by decide) hversion (by decide)
      exact ⟨[embedUrl version], scripts_loaderScript hurl⟩
  | true =>
      have hurl : '>' ∉ (embedAmdUrl version).toList :=
        not_mem_around (by decide) hversion (by decide)
      have hrequire : '>' ∉ requirejsUrl.toList := by decide
      have hbreak : '<' ∉ "\n".toList := by decide
      have hloader : loader true version =
          loaderScript requirejsUrl ++ "\n" ++ loaderScript (embedAmdUrl version) := rfl
      refine ⟨[requirejsUrl, embedAmdUrl version], fun rest => ?_⟩
      rw [hloader, String.toList_append, String.toList_append, List.append_assoc,
        List.append_assoc, scripts_loaderScript hrequire, scripts_outside hbreak,
        scripts_loaderScript hurl]
      rfl

theorem scripts_blocks {mimetype : String} (hmimetype : '>' ∉ mimetype.toList)
    (texts : List String) (rest : List Char) :
    scripts .outside (['\n'].intercalate
        (texts.map fun text => (block mimetype (escapeScript text)).toList) ++ '\n' :: rest) =
      texts.map (fun text => (tagText mimetype, content text)) ++ scripts .outside rest := by
  have hbreak : ∀ rest, scripts .outside ('\n' :: rest) = scripts .outside rest :=
    fun rest => scripts_outside (by decide : '<' ∉ ['\n']) rest
  induction texts with
  | nil => exact hbreak rest
  | cons text texts ih =>
      cases texts with
      | nil =>
          rw [List.map_singleton, List.intercalate_singleton, scripts_block hmimetype, hbreak]
          rfl
      | cons text' texts =>
          rw [List.map_cons, List.map_cons, List.intercalate_cons_cons, List.append_assoc,
            List.append_assoc, scripts_block hmimetype, List.singleton_append, hbreak]
          rw [List.map_cons] at ih
          rw [ih]
          rfl

theorem tagText_inj {mimetype mimetype' : String} :
    tagText mimetype = tagText mimetype' ↔ mimetype = mimetype' := by
  constructor
  · intro heq
    simp only [tagText, String.toList_inj] at heq
    simpa using heq
  · rintro rfl
    rfl

/-- The blocks of a snippet, of both types. -/
theorem blocks_snippet {version : String} (hversion : '>' ∉ version.toList) (requirejs : Bool)
    (text : String) (texts : List String) {page : String}
    (hpage : page = loader requirejs version ++ "\n" ++ block stateMimetype (escapeScript text) ++
      "\n" ++ "\n".intercalate (texts.map fun text => block viewMimetype (escapeScript text)) ++
      "\n") :
    blocks stateMimetype page = [String.ofList (content text)] ∧
      blocks viewMimetype page = texts.map fun text => String.ofList (content text) := by
  have hstate : '>' ∉ stateMimetype.toList := by decide
  have hview : '>' ∉ viewMimetype.toList := by decide
  have hbreak : ∀ rest, scripts .outside ('\n' :: rest) = scripts .outside rest :=
    fun rest => scripts_outside (by decide : '<' ∉ ['\n']) rest
  obtain ⟨urls, hloader⟩ := scripts_loader hversion requirejs
  have hscripts : scripts .outside page.toList =
      urls.map (fun url => (loaderTag url, [])) ++ ((tagText stateMimetype, content text) ::
        texts.map fun text => (tagText viewMimetype, content text)) := by
    have hnewline : "\n".toList = ['\n'] := rfl
    rw [hpage]
    simp only [String.toList_append, String.toList_intercalate, List.map_map, hnewline,
      List.append_assoc, List.cons_append, List.nil_append]
    rw [hloader, hbreak, scripts_block hstate, hbreak]
    have hviews := scripts_blocks hview texts []
    rw [scripts, List.append_nil] at hviews
    rw [← hviews]
    rfl
  have hfilter : ∀ mimetype, (urls.map fun url => (loaderTag url, ([] : List Char))).filter
      (fun script => script.1 = tagText mimetype) = [] := by
    intro mimetype
    rw [List.filter_eq_nil_iff, List.forall_mem_map]
    intro url _
    simp [loaderTag_ne]
  have hblocks : ∀ mimetype, blocks mimetype page =
      ((((tagText stateMimetype, content text) ::
        texts.map fun text => (tagText viewMimetype, content text)).filter fun script =>
          script.1 = tagText mimetype).map fun script => String.ofList script.2) := by
    intro mimetype
    rw [blocks, hscripts, ← tagText, List.filter_append, hfilter, List.nil_append]
  have hne : stateMimetype ≠ viewMimetype := by decide
  constructor
  · rw [hblocks]
    simp [tagText_inj, hne.symm]
  · have hall : ∀ script ∈ texts.map fun text => (tagText viewMimetype, content text),
        decide (script.1 = tagText viewMimetype) = true := by
      rw [List.forall_mem_map]
      exact fun text _ => decide_eq_true rfl
    rw [hblocks, List.filter_cons_of_neg (by simp [tagText_inj, hne]),
      List.filter_eq_self.mpr hall, List.map_map]
    rfl

/-! ### The text of the blocks -/

variable {format : FloatText ℚ} {tuples : Bool}

/-- A printed value reads back out of its block. -/
theorem loads_content {v : Value} (h : Printable format tuples v) (indent : Option Nat) :
    ∃ text, v.dumps format indent = .ok text ∧
      loads format (String.ofList (content text)) = some v.plain := by
  obtain ⟨text, htext, hloads⟩ := loads_dumps indent h
  have hspace : ∀ c ∈ ['\n'], Json.isSpace c = true := List.forall_mem_singleton.mpr rfl
  exact ⟨text, htext, hloads _ ['\n'] ['\n'] (escapes_escapeChars text.toList) hspace hspace⟩

theorem printable_scalar {s : Scalar} (h : ∀ q, s ≠ .float q) (hother : ∀ n, s ≠ .other n) :
    Printable format tuples (.scalar s) := by
  refine ⟨rfl, ?_, rfl, fun path q hlook => ?_⟩
  · cases s with
    | other n => exact absurd rfl (hother n)
    | _ => rfl
  · cases path with
    | nil =>
        simp only [look, label, Option.some.injEq, Label.scalar.injEq] at hlook
        exact absurd hlook (h q)
    | cons k path => simp [look] at hlook

theorem printable_str (s : String) : Printable format tuples (.str s) :=
  printable_scalar (by simp) (by simp)

theorem printable_get {fields : Bindings} (h : Printable format tuples (.dict fields))
    (key : String) {default : Value} (hdefault : Printable format tuples default) :
    Printable format tuples (get fields key default) := by
  unfold Protocol.get
  cases hlookup : fields.lookup (.str key) with
  | none => exact hdefault
  | some value => exact ((printable_dict_iff.mp h).2 _ (Dict.mem_of_lookup hlookup)).2

theorem printable_viewModel (id : String) : Printable format tuples (viewModel (.str id)) := by
  apply printable_dict_iff.mpr
  refine ⟨by simp [Dict.keys], ?_⟩
  simp only [List.forall_mem_cons, List.not_mem_nil, false_implies, implies_true, and_true]
  exact ⟨⟨⟨_, rfl⟩, printable_scalar (by simp) (by simp)⟩,
    ⟨⟨_, rfl⟩, printable_scalar (by simp) (by simp)⟩, ⟨_, rfl⟩, printable_str id⟩

theorem printable_set {fields : Bindings} (h : Printable format tuples (.dict fields))
    (key : String) {value : Value} (hvalue : Printable format tuples value) :
    Printable format tuples (.dict (Dict.set fields (.str key) value)) := by
  obtain ⟨hkeys, hall⟩ := printable_dict_iff.mp h
  refine printable_dict_iff.mpr ⟨Dict.nodup_keys_set hkeys _ _, fun kc hkc => ?_⟩
  rcases Dict.mem_set hkc with rfl | hkc
  · exact ⟨⟨key, rfl⟩, hvalue⟩
  · exact hall kc hkc

theorem printable_viewIdentity {version : Value} (h : Printable format tuples version) :
    Printable format tuples (.dict (viewIdentity version)) := by
  apply printable_dict_iff.mpr
  refine ⟨by simp [viewIdentity, Dict.keys], ?_⟩
  simp only [viewIdentity, List.forall_mem_cons, List.not_mem_nil, false_implies, implies_true,
    and_true]
  exact ⟨⟨⟨_, rfl⟩, printable_str _⟩, ⟨⟨_, rfl⟩, printable_str _⟩, ⟨⟨_, rfl⟩, h⟩, ⟨_, rfl⟩,
    printable_scalar (by simp) (by simp)⟩

theorem printable_update {d e : Bindings} (hd : Printable format tuples (.dict d))
    (he : Printable format tuples (.dict e)) :
    Printable format tuples (.dict (Dict.update d e)) := by
  obtain ⟨hkeys, hd⟩ := printable_dict_iff.mp hd
  obtain ⟨-, he⟩ := printable_dict_iff.mp he
  refine printable_dict_iff.mpr ⟨Dict.nodup_keys_update hkeys e, fun kc hkc => ?_⟩
  rcases Dict.mem_update hkc with hkc | hkc
  · exact hd kc hkc
  · exact he kc hkc

/-! ### Documents with view identity -/

/-- A record with the state that it holds, or leaves out. -/
def IsRecord (record : Value) : Prop :=
  ∃ fields state, record = .dict fields ∧ get fields "state" (.dict []) = .dict state

/-- Records where a document has them, or no records. -/
def IsDocument (document : Bindings) : Prop :=
  ∃ records, get document "state" (.dict []) = .dict records ∧ ∀ kv ∈ records, IsRecord kv.2

theorem exists_mapM_iff {ε α β : Type} {f : α → Except ε β} {xs : List α} :
    (∃ ys, xs.mapM f = .ok ys) ↔ ∀ x ∈ xs, ∃ y, f x = .ok y := by
  induction xs with
  | nil => simp [pure, Except.pure]
  | cons x xs ih =>
      rw [List.forall_mem_cons, ← ih, List.mapM_cons]
      cases f x with
      | error e => simp [bind, Except.bind]
      | ok y => cases xs.mapM f <;> simp [bind, Except.bind, pure, Except.pure]

theorem exists_enrichItem_iff {item : Key × Value} :
    (∃ enriched, enrichItem item = .ok enriched) ↔ IsRecord item.2 := by
  obtain ⟨k, record⟩ := item
  constructor
  · rintro ⟨enriched, h⟩
    cases record with
    | dict fields =>
        refine ⟨fields, ?_⟩
        cases hstate : get fields "state" (.dict []) with
        | dict state => exact ⟨state, rfl, rfl⟩
        | _ => simp [enrichItem, enrichRecord, hstate, bind, Except.bind] at h
    | _ => simp [enrichItem, enrichRecord, bind, Except.bind] at h
  · rintro ⟨fields, state, rfl, hstate⟩
    simp [enrichItem, enrichRecord, hstate, bind, Except.bind, pure, Except.pure]

/-- Any other document is refused. -/
theorem exists_withViewIdentity_iff {document : Bindings} :
    (∃ enriched, withViewIdentity document = .ok enriched) ↔ IsDocument document := by
  unfold withViewIdentity IsDocument
  cases hrecords : get document "state" (.dict []) with
  | dict records =>
      have hitems : (∃ enriched, records.mapM enrichItem = .ok enriched) ↔
          ∀ kv ∈ records, IsRecord kv.2 := by
        rw [exists_mapM_iff]
        simp only [exists_enrichItem_iff]
      cases hmapM : records.mapM enrichItem <;>
        simp [hmapM, bind, Except.bind, pure, Except.pure] at hitems ⊢ <;> exact hitems
  | _ => simp

theorem enrichRecord_printable {record : Value} (hrecord : IsRecord record)
    (h : Printable format tuples record) :
    ∃ enriched, enrichRecord record = .ok enriched ∧ Printable format tuples enriched := by
  obtain ⟨fields, state, rfl, hstate⟩ := hrecord
  have hprintable : Printable format tuples (.dict state) := by
    rw [← hstate]
    exact printable_get h "state" (printable_dict_iff.mpr ⟨List.nodup_nil, by simp⟩)
  have hversion := printable_get h "model_module_version" (printable_str anywidgetModuleVersion)
  refine ⟨_, ?_, printable_set h "state"
    (printable_update (printable_viewIdentity hversion) hprintable)⟩
  rw [enrichRecord]
  simp only [hstate]

/-- A document that JSON can carry is given its view identity, and JSON still can. -/
theorem withViewIdentity_printable {document : Bindings} (hdocument : IsDocument document)
    (h : Printable format tuples (.dict document)) :
    ∃ enriched, withViewIdentity document = .ok enriched ∧
      Printable format tuples (.dict enriched) := by
  obtain ⟨records, hrecords, hall⟩ := hdocument
  have hprintable : Printable format tuples (.dict records) := by
    rw [← hrecords]
    exact printable_get h "state" (printable_dict_iff.mpr ⟨List.nodup_nil, by simp⟩)
  obtain ⟨hkeys, hitems⟩ := printable_dict_iff.mp hprintable
  have hitem : ∀ kv ∈ records, ∃ w, enrichItem kv = .ok (kv.1, w) ∧
      ((∃ s, kv.1 = .str s) ∧ Printable format tuples w) := by
    intro kv hkv
    obtain ⟨enriched, hok, henriched⟩ := enrichRecord_printable (hall kv hkv) (hitems kv hkv).2
    refine ⟨enriched, ?_, (hitems kv hkv).1, henriched⟩
    rw [enrichItem, hok]
    rfl
  obtain ⟨enriched, hmapM, henrichedkeys, henriched⟩ :=
    mapM_records (P := fun k w => (∃ s, k = .str s) ∧ Printable format tuples w) hitem
  refine ⟨Dict.set document (.str "state") (.dict enriched), ?_,
    printable_set h "state" (printable_dict_iff.mpr ⟨henrichedkeys ▸ hkeys, henriched⟩)⟩
  rw [withViewIdentity, hrecords]
  simp only [hmapM, bind, Except.bind, pure, Except.pure]

end Embed

end Cositos
