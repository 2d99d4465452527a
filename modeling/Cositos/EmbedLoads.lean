/-
What comes back out of an exported page: the document with its view identity, the views that
were asked for, and the models that `dump_document` was given, each under the view identity
that its own state overrides.
-/
import Cositos.Embed

namespace Cositos

open Value

/-! ### A merge into a state laid over other fields -/

namespace Buffers

theorem child_dict_update {d e : Bindings} (he : (Dict.keys e).Nodup) (k : Key) :
    (Value.dict (Dict.update d e)).child k =
      ((Value.dict e).child k).or ((Value.dict d).child k) := by
  rw [child_dict, child_dict, child_dict, Dict.lookup_update d he]

/-- Where the upper fields have a key, they are what is seen. -/
theorem look_update_of_child {d e : Bindings} (he : (Dict.keys e).Nodup) {k : Key} {c : Value}
    (hc : (Value.dict e).child k = some c) (path : Path) :
    (Value.dict (Dict.update d e)).look (k :: path) = (Value.dict e).look (k :: path) := by
  have hchild : (Value.dict (Dict.update d e)).child k = some c := by
    rw [child_dict_update he, hc, Option.some_or]
  rw [look_cons_of_child hchild, look_cons_of_child hc]

theorem look_update_of_child_none {d e : Bindings} (he : (Dict.keys e).Nodup) {k : Key}
    (hc : (Value.dict e).child k = none) (path : Path) :
    (Value.dict (Dict.update d e)).look (k :: path) = (Value.dict d).look (k :: path) := by
  have hchild : (Value.dict (Dict.update d e)).child k = (Value.dict d).child k := by
    rw [child_dict_update he, hc, Option.none_or]
  rw [look, look, hchild]

/-- Buffers merge into the stripped state, where it lies over other fields, as they do into
the stripped state alone: a key that only a buffer keeps is taken from the fields below until
the buffer is back. -/
theorem putBuffers_overlay {d e : Bindings} (hwf : (Value.dict e).Wf)
    (hlisted : (Value.dict e).listed = .dict e) :
    ∃ w, putBuffers (.dict (Dict.update d (stripEntries e)))
        ((Value.dict e).binaries.map fun leaf => leaf.1.toValue)
        ((Value.dict e).binaries.map Prod.snd) = .ok w ∧ w ≈ .dict (Dict.update d e) := by
  have hkeys : (Dict.keys e).Nodup := (wf_dict_iff.mp hwf).1
  have hstripped : (Dict.keys (stripEntries e)).Nodup :=
    hkeys.sublist (keys_stripEntries_sublist e)
  have hstrip : (Value.dict e).strip = .dict (stripEntries e) := rfl
  have hset : ∀ leaf ∈ (Value.dict e).binaries,
      (Value.dict (Dict.update d (stripEntries e))).Settable leaf.1 := by
    intro leaf hleaf
    obtain ⟨front, last, heq, hparent⟩ := settable_strip hwf rfl ((mem_binaries_iff hwf).mp hleaf)
    refine ⟨front, last, heq, ?_⟩
    cases front with
    | nil => exact Or.inl rfl
    | cons k front =>
        rw [hstrip] at hparent
        cases hc : (Value.dict (stripEntries e)).child k with
        | none => simp [look, hc] at hparent
        | some c => rwa [look_update_of_child hstripped hc]
  obtain ⟨w, hput, hmerges⟩ :=
    putBuffers_leaves (Value.dict e).binaries hset (incomparable_binaries hwf)
  refine ⟨w, hput, fun path => ?_⟩
  by_cases hbelow : ∃ leaf ∈ (Value.dict e).binaries, leaf.1 <+: path
  · obtain ⟨leaf, hleaf, rest, rfl⟩ := hbelow
    have hlook := (mem_binaries_iff hwf).mp hleaf
    rw [hmerges.1 leaf hleaf rest, ← look_append_of_bin hlook rest]
    obtain ⟨path, b⟩ := leaf
    cases path with
    | nil => simp [look, label] at hlook
    | cons k path =>
        obtain ⟨c, hc, _⟩ := Option.bind_eq_some_iff.mp hlook
        rw [List.cons_append, look_update_of_child hkeys hc]
  · simp only [not_exists, not_and] at hbelow
    have hleaf : ∀ front b, (Value.dict e).look front = some (.bin b) → ¬ front <+: path :=
      fun front b hfront => hbelow (front, b) ((mem_binaries_iff hwf).mpr hfront)
    rw [hmerges.2 path hbelow]
    cases path with
    | nil => rfl
    | cons k path =>
        have hboth : (Value.dict (stripEntries e)).look (k :: path) =
            (Value.dict e).look (k :: path) := by
          rw [← hstrip, look_strip_eq_listed hwf hleaf, hlisted]
        have hbin : ∀ b, (Value.dict e).child k ≠ some (.bin b) := by
          intro b hb
          have hlook : (Value.dict e).look [k] = some (.bin b) := by
            rw [look_cons_of_child hb]
            rfl
          exact hleaf [k] b hlook ⟨path, rfl⟩
        have hchild := child_strip hwf hbin
        rw [hstrip] at hchild
        cases hc : (Value.dict e).child k with
        | none =>
            rw [hc, Option.map_none] at hchild
            rw [look_update_of_child_none hstripped hchild, look_update_of_child_none hkeys hc]
        | some c =>
            rw [hc, Option.map_some] at hchild
            rw [look_update_of_child hstripped hchild, look_update_of_child hkeys hc, hboth]

end Buffers

namespace Value

theorem plainEntries_update (d e : Bindings) :
    plainEntries (Dict.update d e) = Dict.update (plainEntries d) (plainEntries e) := by
  induction e generalizing d with
  | nil => rfl
  | cons kc e ih =>
      obtain ⟨k, c⟩ := kc
      rw [Dict.update_cons, ih, plainEntries_eq (Dict.set d k c), ← Dict.set_map_snd,
        ← plainEntries_eq d]
      rfl

theorem plainEntries_stripEntries (kvs : Bindings) :
    plainEntries (stripEntries kvs) = stripEntries (plainEntries kvs) := by
  have h := plain_strip (.dict kvs)
  simpa [strip, plain] using h

end Value

namespace Embed

open Protocol Serialize Scripts

/-! ### The models that come back -/

variable {anywidgetVersion : String}

/-- The version that a record of `dump_document` tells. -/
def modelVersion (anywidgetVersion : String) (fields : Bindings) : Value :=
  get fields "_model_module_version" (.str anywidgetVersion)

/-- A record of `dump_document` with its view identity. -/
def enrichedRecord (anywidgetVersion : String) (fields : Bindings) : Bindings :=
  Dict.set (modelRecord anywidgetVersion fields) (.str "state")
    (.dict (Dict.update (viewIdentity (modelVersion anywidgetVersion fields))
      (stripEntries fields)))

def enrichedRecords (anywidgetVersion : String) (entries : List (String × HostState)) : Bindings :=
  entries.map fun entry => (.str entry.1, .dict (enrichedRecord anywidgetVersion entry.2.fields))

theorem enrichItem_modelRecord (key : Key) (fields : Bindings) :
    enrichItem (key, .dict (modelRecord anywidgetVersion fields)) =
      .ok (key, .dict (enrichedRecord anywidgetVersion fields)) := rfl

theorem withViewIdentity_document (entries : List (String × HostState)) :
    withViewIdentity (document anywidgetVersion entries) =
      .ok [(.str "version_major", .int stateVersionMajor),
        (.str "version_minor", .int stateVersionMinor),
        (.str "state", .dict (enrichedRecords anywidgetVersion entries))] := by
  have hmapM : (modelRecords anywidgetVersion entries).mapM enrichItem =
      .ok (enrichedRecords anywidgetVersion entries) := by
    rw [modelRecords, enrichedRecords]
    apply mapM_of_forall₂
    rw [List.forall₂_map_left_iff, List.forall₂_same]
    exact fun entry _ => enrichItem_modelRecord _ entry.2.fields
  have hrecords : get (document anywidgetVersion entries) "state" (.dict []) =
      .dict (modelRecords anywidgetVersion entries) := rfl
  rw [withViewIdentity, hrecords]
  simp only [hmapM, bind, Except.bind]
  rfl

/-- A record that came back holds the view identity under the state, binaries included. -/
theorem loadModel_enriched (anywidgetVersion : String) {fields : Bindings}
    (hwf : (Value.dict fields).Wf) (key : Key) :
    ∃ w, loadModel (key, (Value.dict (enrichedRecord anywidgetVersion fields)).plain) =
        .ok (key, w) ∧
      w ≈ (Value.dict (Dict.update (viewIdentity (modelVersion anywidgetVersion fields))
        fields)).plain := by
  have hplain : (Value.dict fields).plain = .dict (plainEntries fields) := rfl
  obtain ⟨w, hput, hw⟩ := Buffers.putBuffers_overlay
    (d := plainEntries (viewIdentity (modelVersion anywidgetVersion fields)))
    (hplain ▸ wf_plain hwf) (hplain ▸ listed_plain (.dict fields))
  rw [← hplain, binaries_plain, List.map_map, List.map_map, ← plainEntries_stripEntries,
    ← plainEntries_update] at hput
  rw [← plainEntries_update] at hw
  have hmerge : Buffers.putBuffers (.dict (plainEntries (Dict.update
      (viewIdentity (modelVersion anywidgetVersion fields)) (stripEntries fields))))
      ((Value.dict fields).binaries.map fun leaf => leaf.1.toValue)
      ((Value.dict fields).binaries.map fun leaf => ⟨.bytes, leaf.2.raw⟩) = .ok w := hput
  refine ⟨w, ?_, hw⟩
  have hstate : (Value.dict (enrichedRecord anywidgetVersion fields)).plain.getItem
      (.str "state") = .ok (.dict (plainEntries (Dict.update
        (viewIdentity (modelVersion anywidgetVersion fields)) (stripEntries fields)))) := rfl
  have hbuffers : get (Value.dict (enrichedRecord anywidgetVersion fields)).plain.bindings
      "buffers" (.list []) = .list ((bufferRecords fields).map plain) := by
    by_cases hempty : bufferRecords fields = []
    · rw [enrichedRecord, modelRecord, hempty]
      rfl
    · have hnot : (bufferRecords fields).isEmpty = false := by simpa using hempty
      rw [enrichedRecord, modelRecord, hnot, ← plainSeq_eq]
      rfl
  rw [loadModel, hstate, hbuffers]
  simp only [bind, Except.bind, decodeBuffersBase64_bufferRecords, hmerge, pure, Except.pure]

/-- A model of the page that came of an entry. -/
def CameOf (anywidgetVersion : String) (entry : String × HostState) (item : Key × Value) : Prop :=
  item.1 = .str entry.1 ∧ item.2 ≈ (Value.dict (Dict.update
    (viewIdentity (modelVersion anywidgetVersion entry.2.fields)) entry.2.fields)).plain

theorem mapM_loadModel_enriched (anywidgetVersion : String)
    (entries : List (String × HostState)) :
    ∃ loaded, (plainEntries (enrichedRecords anywidgetVersion entries)).mapM loadModel =
        .ok loaded ∧ List.Forall₂ (CameOf anywidgetVersion) entries loaded := by
  induction entries with
  | nil => exact ⟨[], rfl, .nil⟩
  | cons entry entries ih =>
      obtain ⟨loaded, hloaded, hall⟩ := ih
      obtain ⟨w, hw, hequiv⟩ := loadModel_enriched anywidgetVersion entry.2.wf (.str entry.1)
      refine ⟨(.str entry.1, w) :: loaded, ?_, .cons ⟨rfl, hequiv⟩ hall⟩
      rw [enrichedRecords, List.map_cons, plainEntries, List.mapM_cons, hw]
      simp only [bind, Except.bind]
      rw [← enrichedRecords, hloaded]
      rfl

/-- What `load_document` makes of the document in the page. -/
theorem loadDocument_enriched {entries : List (String × HostState)} {enriched : Bindings}
    (h : withViewIdentity (document anywidgetVersion entries) = .ok enriched) :
    ∃ loaded, loadDocument (plainEntries enriched) = .ok loaded ∧
      List.Forall₂ (CameOf anywidgetVersion) entries loaded := by
  rw [withViewIdentity_document] at h
  cases h
  obtain ⟨loaded, hloaded, hall⟩ := mapM_loadModel_enriched anywidgetVersion entries
  exact ⟨loaded, hloaded, hall⟩

/-! ### The page -/

variable {format : FloatText ℚ} {tuples : Bool}

theorem viewBlocks_ok (format : FloatText ℚ) (views : List String) :
    ∃ texts, (views.map Value.str).mapM (viewBlock format) =
        .ok (texts.map fun text => block viewMimetype (escapeScript text)) ∧
      List.Forall₂ (fun id text =>
        loads format (String.ofList (content text)) = some (viewModel (.str id))) views texts := by
  induction views with
  | nil => exact ⟨[], rfl, .nil⟩
  | cons id views ih =>
      obtain ⟨texts, htexts, hall⟩ := ih
      have hprintable : Printable format false (viewModel (.str id)) := printable_viewModel id
      obtain ⟨text, htext, hloads⟩ := loads_content hprintable none
      rw [hprintable.plain_eq] at hloads
      refine ⟨text :: texts, ?_, .cons hloads hall⟩
      rw [List.map_cons, List.mapM_cons, viewBlock, htext, htexts]
      rfl

theorem safe_block (text : String) : ∀ sequence ∈ ["<script", "</script", "<!--"],
    ¬ Occurs sequence.toList (String.ofList (content text)).toList := by
  rw [String.toList_ofList]
  intro sequence hsequence
  simp only [List.mem_cons, List.not_mem_nil, or_false] at hsequence
  rcases hsequence with rfl | rfl | rfl
  · have hword : "script".toList ∈ breakouts := by decide
    exact (safe_content text).not_occurs hword
  · have hword : "/script".toList ∈ breakouts := by decide
    exact (safe_content text).not_occurs hword
  · have hword : "!--".toList ∈ breakouts := by decide
    exact (safe_content text).not_occurs hword

/-- The page of a document that JSON can carry: one block for its state and one for each view,
in order, none of which holds a sequence that ends or hides a script; each reads back, the
state as the document with its view identity, and out of it come the models that were dumped,
each under the view identity that its state overrides. -/
theorem snippet_faithful (format : FloatText ℚ) (tuples : Bool) (document : Bindings)
    (views : List String) (requirejs : Bool) (version : String)
    (hversion : '>' ∉ version.toList) (hdocument : IsDocument document)
    (hprintable : Printable format tuples (.dict document)) :
    ∃ enriched page stateBlock viewBlocks,
      withViewIdentity document = .ok enriched ∧
      embedSnippet format document (some views) requirejs version = .ok page ∧
      blocks stateMimetype page = [stateBlock] ∧ blocks viewMimetype page = viewBlocks ∧
      (∀ block ∈ stateBlock :: viewBlocks, ∀ sequence ∈ ["<script", "</script", "<!--"],
        ¬ Occurs sequence.toList block.toList) ∧
      loads format stateBlock = some (Value.dict enriched).plain ∧
      (tuples = false → loads format stateBlock = some (.dict enriched)) ∧
      List.Forall₂ (fun id block => loads format block = some (viewModel (.str id)))
        views viewBlocks ∧
      ∀ entries anywidgetVersion,
        dumpDocument (modelEntries entries) anywidgetVersion = .ok document →
        ∃ parsed loaded, loads format stateBlock = some (.dict parsed) ∧
          loadDocument parsed = .ok loaded ∧
          List.Forall₂ (CameOf anywidgetVersion) entries loaded := by
  obtain ⟨enriched, henriched, hprint⟩ := withViewIdentity_printable hdocument hprintable
  obtain ⟨text, htext, hloads⟩ := loads_content hprint (some 2)
  obtain ⟨texts, htexts, hviews⟩ := viewBlocks_ok format views
  have hpage : embedSnippet format document (some views) requirejs version =
      .ok (loader requirejs version ++ "\n" ++ block stateMimetype (escapeScript text) ++ "\n" ++
        "\n".intercalate (texts.map fun text => block viewMimetype (escapeScript text)) ++
        "\n") := by
    rw [embedSnippet, henriched]
    simp only [bind, Except.bind, htext, modelIds, htexts, pure, Except.pure]
  obtain ⟨hstateblocks, hviewblocks⟩ := blocks_snippet hversion requirejs text texts rfl
  refine ⟨enriched, _, _, _, henriched, hpage, hstateblocks, hviewblocks, ?_, hloads, ?_, ?_, ?_⟩
  · rw [List.forall_mem_cons, List.forall_mem_map]
    exact ⟨safe_block text, fun text _ => safe_block text⟩
  · rintro rfl
    rw [hloads, hprint.plain_eq]
  · rw [List.forall₂_map_right_iff]
    exact hviews
  · intro entries anywidgetVersion hdump
    obtain ⟨rfl, -, -⟩ := eq_document_of_dumpDocument hdump
    obtain ⟨loaded, hloaded, hall⟩ := loadDocument_enriched henriched
    exact ⟨plainEntries enriched, loaded, hloads, hloaded, hall⟩

end Embed

namespace EmbedWitness

open Serialize

def half : ℚ := 1 / 2

/-- `repr` and `float`, on one float. -/
def format : FloatText ℚ where
  repr _ := "0.5".toList
  ofText _ := half

/-- `{"html": "</script><!-- x", "ratio": 0.5, "image": b"A"}`. -/
def chart : HostState where
  fields := [(.str "html", .str "</script><!-- x"), (.str "ratio", .scalar (.float half)),
    (.str "image", .bin ⟨.bytes, [65]⟩)]
  wf := by decide

/-- The document of the one model `m`. -/
def page : Bindings := document "1" [("m", chart)]

theorem lawful_half : format.Lawful half := by
  refine ⟨⟨[], ['0'], ['.', '5'], [], rfl, by decide, .zero, .digits (by decide) ?_, .none,
    by decide⟩, rfl⟩
  exact fun c hc => by rw [List.mem_singleton.mp hc]; rfl

theorem printable_page : Printable format false (.dict page) := by
  have hint : ∀ i, Printable format false (.int i) := fun i =>
    Embed.printable_scalar (by simp) (by simp)
  have hstr : ∀ s, Printable format false (.str s) := Embed.printable_str
  have hratio : Printable format false (.scalar (.float half)) := by
    refine ⟨rfl, rfl, rfl, fun path q hlook => ?_⟩
    cases path with
    | nil =>
        simp only [look, label, Option.some.injEq, Label.scalar.injEq, Scalar.float.injEq] at hlook
        exact hlook ▸ lawful_half
    | cons k path => simp [look] at hlook
  have hstate : Printable format false
      (.dict [(.str "html", .str "</script><!-- x"), (.str "ratio", .scalar (.float half))]) :=
    printable_dict_iff.mpr ⟨by decide, by simp [hstr, hratio]⟩
  have hbuffer : Printable format false (bufferRecord [.str "image"] ⟨.bytes, [65]⟩) := by
    have hpath : Printable format false (Path.toValue [.str "image"]) :=
      printable_list (by simp [Key.toValue, hstr])
    exact printable_dict_iff.mpr ⟨by decide, by simp [hpath, hstr]⟩
  have hbuffers : Printable format false (.list [bufferRecord [.str "image"] ⟨.bytes, [65]⟩]) :=
    printable_list (by simpa using hbuffer)
  have hrecord : Printable format false (.dict (modelRecord "1" chart.fields)) := by
    have hfields : modelRecord "1" chart.fields =
        [(.str "model_name", .str "AnyModel"), (.str "model_module", .str "anywidget"),
          (.str "model_module_version", .str "1"),
          (.str "state", .dict [(.str "html", .str "</script><!-- x"),
            (.str "ratio", .scalar (.float half))]),
          (.str "buffers", .list [bufferRecord [.str "image"] ⟨.bytes, [65]⟩])] := rfl
    rw [hfields]
    exact printable_dict_iff.mpr ⟨by decide, by simp [hstr, hstate, hbuffers]⟩
  have hrecords : Printable format false
      (.dict [(.str "m", .dict (modelRecord "1" chart.fields))]) :=
    printable_dict_iff.mpr ⟨by decide, by simpa using hrecord⟩
  have hpage : page = [(.str "version_major", .int 2), (.str "version_minor", .int 0),
      (.str "state", .dict [(.str "m", .dict (modelRecord "1" chart.fields))])] := rfl
  rw [hpage]
  exact printable_dict_iff.mpr ⟨by decide, by simp [hint, hrecords]⟩

theorem isDocument_page : Embed.IsDocument page := by
  refine ⟨[(.str "m", .dict (modelRecord "1" chart.fields))], rfl, ?_⟩
  rw [List.forall_mem_singleton]
  exact ⟨modelRecord "1" chart.fields, stripEntries chart.fields, rfl, rfl⟩

end EmbedWitness

namespace Embed

open EmbedWitness Scripts in
theorem snippet_faithful_chart :
    ∃ enriched snippet stateBlock viewBlock,
      withViewIdentity page = .ok enriched ∧
      embedSnippet format page (some ["m"]) = .ok snippet ∧
      blocks stateMimetype snippet = [stateBlock] ∧ blocks viewMimetype snippet = [viewBlock] ∧
      loads format stateBlock = some (.dict enriched) ∧
      loads format viewBlock = some (viewModel (.str "m")) ∧
      ∃ parsed w, loads format stateBlock = some (.dict parsed) ∧
        Serialize.loadDocument parsed = .ok [(.str "m", w)] ∧
        w ≈ (Value.dict (Dict.update (viewIdentity (.str "1")) chart.fields)).plain := by
  have hdump : Serialize.dumpDocument (Serialize.modelEntries [("m", chart)]) "1" = .ok page :=
    Serialize.dumpDocument_eq_document (by decide) (by decide)
  obtain ⟨enriched, snippet, stateBlock, viewBlocks, henriched, hsnippet, hstate, hviews, -, -,
    hloads, hall, hmodels⟩ := snippet_faithful format false page ["m"] true "1" (by decide)
      isDocument_page printable_page
  obtain ⟨viewBlock, _, hview, hnil, rfl⟩ := List.forall₂_cons_left_iff.mp hall
  obtain rfl := List.forall₂_nil_left_iff.mp hnil
  obtain ⟨parsed, loaded, hparsed, hloaded, hmodel⟩ := hmodels [("m", chart)] "1" hdump
  obtain ⟨⟨key, w⟩, _, ⟨hkey, hw⟩, hnil, rfl⟩ := List.forall₂_cons_left_iff.mp hmodel
  obtain rfl := List.forall₂_nil_left_iff.mp hnil
  obtain rfl : key = .str "m" := hkey
  exact ⟨enriched, snippet, stateBlock, viewBlock, henriched, hsnippet, hstate, hviews,
    hloads rfl, hview, parsed, w, hparsed, hloaded, hw⟩

/-! ### What does not come back -/

section CodePoints

open JsonText Scripts

/-- What `with_view_identity` makes of a document of Python strings that has no models. -/
def withoutModels (fields : List (List CodePoint × Json ℚ (List CodePoint))) :
    Json ℚ (List CodePoint) :=
  .obj (fields ++ [(points "state", .obj [])])

/-- The content of its state block. -/
def stateContent (format : FloatText ℚ) (document : Json ℚ (List CodePoint)) : List Char :=
  content (String.ofList (document.dump format (some 2) 0))

/-- Whatever text the content reads as is the value. -/
def ReadsAs (format : FloatText ℚ) (content : List Char) (v : Json ℚ (List CodePoint)) : Prop :=
  ∀ json, Json.parse format content = some json → json.codePoints = v

/-- Both halves of a surrogate pair, as two code points: `"\ud83d\ude00"`. -/
def pair : List CodePoint := [⟨0xd83d, by decide⟩, ⟨0xde00, by decide⟩]

/-- A pair prints as the one character that it stands for. -/
theorem dump_pair (format : FloatText ℚ) :
    (withoutModels [(points "note", .str pair)]).dump format (some 2) 0 =
      Json.dump format (some 2) 0 (.obj [("note", .str "😀"), ("state", .obj [])]) := by
  have hpair : Quoted.quote pair = quote "😀" := rfl
  simp only [withoutModels, List.singleton_append, Json.dump, Json.dumpMembers, quoted_points,
    quoted_string, hpair]

/-- `{"sizes": (1,)}`. -/
def sized : Bindings := [(.str "sizes", .tuple [.int 1])]

theorem withViewIdentity_sized :
    withViewIdentity sized = .ok [(.str "sizes", .tuple [.int 1]), (.str "state", .dict [])] := rfl

theorem printable_sizes : Printable EmbedWitness.format true (.tuple [.int 1]) := by
  refine ⟨rfl, rfl, rfl, fun path q hlook => ?_⟩
  cases path with
  | nil => simp [look, label] at hlook
  | cons k path =>
      obtain ⟨c, hc, hlook⟩ := Option.bind_eq_some_iff.mp hlook
      rw [child_tuple] at hc
      obtain ⟨-, rfl⟩ : k = .int 0 ∧ c = .int 1 := by
        simpa [enumItems] using child_seq_iff.mp hc
      have hone : Printable EmbedWitness.format true (.int 1) :=
        printable_scalar (by simp) (by simp)
      exact hone.floats path q hlook

theorem printable_sized : Printable EmbedWitness.format true (.dict sized) :=
  printable_dict_iff.mpr ⟨by decide, by simp [sized, printable_sizes]⟩

theorem printable_enriched : Printable EmbedWitness.format true
    (.dict [(.str "sizes", .tuple [.int 1]), (.str "state", .dict [])]) :=
  printable_dict_iff.mpr ⟨by decide, by simp [printable_sizes, printable_dict_iff]⟩

/-- Two halves of a pair read back as one character, and a tuple as a list. -/
theorem pair_joined_and_tuple_listed :
    (¬ ∀ fields : List (List CodePoint × Json ℚ (List CodePoint)), (Dict.keys fields).Nodup →
      points "state" ∉ Dict.keys fields →
      ReadsAs EmbedWitness.format (stateContent EmbedWitness.format (withoutModels fields))
        (withoutModels fields)) ∧
    ¬ ∀ document page, IsDocument document →
      Printable EmbedWitness.format true (.dict document) →
      embedSnippet EmbedWitness.format document (some []) = .ok page →
      ∃ enriched, withViewIdentity document = .ok enriched ∧
        (blocks stateMimetype page).map (loads EmbedWitness.format) =
          [some (.dict enriched)] := by
  constructor
  · intro h
    have hread : Json.parse EmbedWitness.format
        (stateContent EmbedWitness.format (withoutModels [(points "note", .str pair)])) =
          some (.obj [("note", .str "😀"), ("state", .obj [])]) := by
      have hspace : ∀ c ∈ ['\n'], Json.isSpace c = true := List.forall_mem_singleton.mpr rfl
      rw [stateContent, dump_pair, content, String.toList_ofList]
      exact Json.parse_escapes (by simp [Json.floats, Json.floatsMembers]) (escapes_escapeChars _)
        hspace hspace
    have hkey : points "state" ∉ Dict.keys [(points "note", (Json.str pair : Json ℚ _))] := by
      rw [Dict.keys, List.map_singleton, List.mem_singleton]
      decide
    have hsame := h [(points "note", .str pair)] (List.nodup_singleton _) hkey _ hread
    have hpair : points "😀" = pair := by
      simp only [Json.codePoints, Json.codePointsMembers, withoutModels, List.singleton_append,
        Json.obj.injEq, List.cons.injEq, Prod.mk.injEq, Json.str.injEq] at hsame
      exact hsame.1.2
    exact absurd hpair (by decide)
  · intro h
    obtain ⟨text, htext, hloads⟩ := loads_content printable_enriched (some 2)
    have hpage : embedSnippet EmbedWitness.format sized (some []) =
        .ok (loader true "1" ++ "\n" ++ block stateMimetype (escapeScript text) ++ "\n" ++
          "\n".intercalate [] ++ "\n") := by
      rw [embedSnippet, withViewIdentity_sized]
      simp only [bind, Except.bind, htext, modelIds, pure, Except.pure]
      rfl
    have hversion : '>' ∉ "1".toList := by decide
    have hblocks := (blocks_snippet hversion true text [] rfl).1
    obtain ⟨enriched, henriched, hsame⟩ := h _ _ ⟨[], rfl, by simp⟩ printable_sized hpage
    obtain rfl := Except.ok.inj (withViewIdentity_sized.symm.trans henriched)
    rw [List.map_nil] at hblocks
    rw [hblocks, List.map_singleton, hloads] at hsame
    simp [plain, plainEntries, plainSeq] at hsame

end CodePoints

end Embed

end Cositos
