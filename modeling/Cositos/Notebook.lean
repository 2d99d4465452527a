/-
The Clay notebook (`clay_notebook.clj`): counters that the JVM keeps, and pages that show them,
over one socket a page.  The handlers of the server run beside each other; what they do to the
counters and to the socket are steps of their own.
-/
import Cositos.Clay
import Cositos.CSharpReducer

namespace Cositos

open Value

namespace ClayNotebook

open Clay Front

/-! ### The system -/

/-- A page: the models that `mount` made, by their ids, whether its socket is open, and the
frames on their way to the page and to the server, oldest first. -/
structure Client where
  widgets : List (String × Model)
  isOpen : Bool := false
  inbox : List Value := []
  outbox : List Value := []

/-- The libraries of the two sides.  `recipients` is what Clay's `broadcast!` does with a frame:
the pages that it sends it to, one after the other. -/
structure Wire where
  jvm : JsonLibrary
  js : JsonLibrary
  decode : String → Option (List UInt8)
  atob : Value → Option (List UInt8)
  same : Path → Path → Bool
  recipients : List Client → List Nat

/-- The keys of `state`. -/
def ids : List String := ["a", "b"]

/-- What a handler still does.  `deref` reads the counter that is then broadcast, which is to
send a frame to one page after the other. -/
inductive Instruction
  | swap (id : String)
  | deref (id : String)
  | broadcast (id : String) (count : Nat)
  | send (client : Nat) (data : Value)

/-- The server and its clients.  `sent` records what the clients sent; the code keeps no such
record. -/
structure Notebook where
  state : List (String × Nat)
  handlers : List (List Instruction) := []
  clients : List Client := []
  sent : List Value := []

/-- `state`, before any page is open. -/
def start : Notebook where
  state := ids.map fun id => (id, 0)

/-- `{"count" n}`. -/
def counted (n : Nat) : Value := .dict [(.str "count", .int n)]

/-- `widget-bootstrap`. -/
def mount : List (String × Model) := ids.map fun id => (id, Model.new [(.str "count", .int 0)])

/-- The value of `Long/MAX_VALUE`, above which `inc` throws. -/
def maxLong : Nat := 9223372036854775807

variable (wire : Wire)

/-- `on-open`. -/
def onOpen : List Instruction := ids.map .deref

/-- `on-receive`. -/
def onReceive (state : List (String × Nat)) (data : Value) :
    Except ClojureError (List Instruction) := do
  match ← Clojure.parseFrame wire.jvm wire.decode data with
  | none => return []
  | some parsed =>
      match ← Clojure.applyInbound parsed, parsed.id with
      | .custom content, .str id =>
          match Clojure.get content (.str "kind") with
          | .str "increment" =>
              return if id ∈ Dict.keys state then [.swap id, .deref id] else []
          | _ => return []
      | _, _ => return []

/-- What the handler of a frame does; an exception ends it. -/
def handler (state : List (String × Nat)) (data : Value) : List Instruction :=
  ((onReceive wire state data).toOption).getD []

/-- What a click on the button of a widget sends. -/
def clickFrame (id : String) : Value :=
  let (msg, _) := Model.send (.dict [(.str "kind", .str "increment")]) []
  .str (ClayChannel.send ⟨some id, true, []⟩ wire.js (.dict msg) [])

/-- A frame comes in on the socket of a page, at one of its widgets. -/
def hear (data : Value) (widget : String × Model) : String × Model :=
  match ClayChannel.onFrame ⟨some widget.1, true, []⟩ wire.js wire.atob data with
  | .ok channel =>
      (widget.1, channel.delivered.foldl (fun model message =>
        match model.receive message.1 (message.2.map (Binary.mk .bytes)) with
        | .ok (model, _) => model
        | .error _ => model) widget.2)
  | .error _ => widget

namespace Notebook

/-- The counter of an id. -/
def count (s : Notebook) (id : String) : Nat := (s.state.lookup id).getD 0

/-- A frame is sent to a page. -/
def post (s : Notebook) (i : Nat) (data : Value) : Notebook :=
  { s with clients := s.clients.modify i fun client =>
      { client with inbox := client.inbox ++ [data] } }

/-- A page sends a frame.  On a socket that is not open yet that throws, which the page catches,
and on one that is closed nothing comes of it. -/
def transmit (s : Notebook) (i : Nat) (data : Value) : Notebook :=
  match s.clients[i]? with
  | some client =>
      if client.isOpen then
        { s with
          clients := s.clients.set i { client with outbox := client.outbox ++ [data] }
          sent := s.sent ++ [data] }
      else s
  | none => s

/-- The socket of a page opens, or closes.  What was sent before is still on its way. -/
def turn (s : Notebook) (i : Nat) (isOpen : Bool) : Notebook :=
  { s with clients := s.clients.modify i fun client => { client with isOpen } }

/-- A handler does its next thing; an exception ends it. -/
def advance (s : Notebook) (k : Nat) : Notebook :=
  match s.handlers[k]? with
  | some (.swap id :: rest) =>
      if s.count id = maxLong then { s with handlers := s.handlers.set k [] }
      else
        { s with
          state := Dict.set s.state id (s.count id + 1)
          handlers := s.handlers.set k rest }
  | some (.deref id :: rest) =>
      { s with handlers := s.handlers.set k (.broadcast id (s.count id) :: rest) }
  | some (.broadcast id n :: rest) =>
      match Clojure.updateFrame wire.jvm wire.same (some id) (counted n) with
      | .ok text =>
          let sends := (wire.recipients s.clients).map (.send · (.str text))
          { s with handlers := s.handlers.set k (sends ++ rest) }
      | .error _ => { s with handlers := s.handlers.set k [] }
  | some (.send i data :: rest) => { s with handlers := s.handlers.set k rest }.post i data
  | _ => s

/-- The server takes the oldest frame of a page. -/
def accept (s : Notebook) (i : Nat) : Notebook :=
  match s.clients[i]? with
  | some client =>
      match client.outbox with
      | data :: rest =>
          { s with
            clients := s.clients.set i { client with outbox := rest }
            handlers := s.handlers ++ [handler wire s.state data] }
      | [] => s
  | none => s

/-- A page takes the oldest frame of the server. -/
def deliver (s : Notebook) (i : Nat) : Notebook :=
  match s.clients[i]? with
  | some client =>
      match client.inbox with
      | data :: rest =>
          let widgets := client.widgets.map (hear wire data)
          { s with clients := s.clients.set i { client with widgets, inbox := rest } }
      | [] => s
  | none => s

end Notebook

/-- What happens. -/
inductive Action
  /-- The server has a new page. -/
  | connect
  /-- The socket of a page opens, or closes. -/
  | turn (client : Nat) (isOpen : Bool)
  | click (client : Nat) (id : String)
  /-- Other code of a page sends a frame. -/
  | say (client : Nat) (data : Value)
  /-- Clay sends a page a frame of its own. -/
  | foreign (client : Nat) (data : Value)
  | accept (client : Nat)
  | advance (handler : Nat)
  | deliver (client : Nat)

/-- One thing happens. -/
def step (s : Notebook) : Action → Notebook
  | .connect =>
      { s with
        handlers := s.handlers ++ [onOpen]
        clients := s.clients ++ [{ widgets := mount }] }
  | .turn i isOpen => s.turn i isOpen
  | .click i id => if id ∈ ids then s.transmit i (clickFrame wire id) else s
  | .say i data => s.transmit i data
  | .foreign i data => s.post i data
  | .accept i => s.accept wire i
  | .advance k => s.advance wire k
  | .deliver i => s.deliver wire i

/-- What Clay sends is no frame of ours. -/
def Foreign (data : Value) : Prop := ∀ text, data = .str text → payload text = none

def Action.Proper : Action → Prop
  | .foreign _ data => Foreign data
  | _ => True

/-- The id of the counter that a frame of a page asks to increment. -/
def wants (data : Value) : Option String :=
  match onReceive wire (ids.map fun id => (id, 0)) data with
  | .ok (.swap id :: _) => some id
  | _ => none

/-- What the widget of a page shows. -/
def Client.shows (client : Client) (id : String) : Option Value :=
  (client.widgets.lookup id).bind fun model => model.state.lookup (.str "count")

/-! ### Frames -/

/-- Text that the one library writes, the other reads as the value that was written; no object
that is read repeats a key. -/
def Reads (writer reader : JsonLibrary) (v : Value) : Prop :=
  ∃ v', reader.read (writer.write v) = some v' ∧ v' ≈ v ∧ v'.Wf

/-- The libraries carry what the notebook sends; a page reads the integers exactly that a double
holds. -/
structure Wire.Faithful : Prop where
  decode : ∀ raw, wire.decode (String.ofList (Base64.encode raw)) = some raw
  atob : ∀ raw, wire.atob (.str (String.ofList (Base64.encode raw))) = some raw
  counts : ∀ id ∈ ids, ∀ n ≤ 9007199254740992, Reads wire.jvm wire.js
    (envelope (some id) (Clojure.updateMessage (counted n)) [])
  increments : ∀ id ∈ ids, Reads wire.js wire.jvm
    (envelope (some id) (.dict (Model.send (.dict [(.str "kind", .str "increment")]) []).1) [])

/-- A broadcast is sent to every page. -/
def Wire.ReachesAll : Prop :=
  ∀ clients : List Client, ∀ i < clients.length, i ∈ wire.recipients clients

/-- The frame that broadcasts a counter. -/
def countFrame (id : String) (n : Nat) : Value :=
  .str (Clojure.frame wire.jvm (some id) (Clojure.updateMessage (counted n)) [])

/-- No handler reads a counter while another one has an older value of it to broadcast or is
about to send it. -/
def Unhurried (s : Notebook) : Action → Prop
  | .advance k => ∀ id rest, s.handlers[k]? = some (.deref id :: rest) →
      ∀ n, (.broadcast id n ∈ s.handlers.flatten ∨
        ∃ i, .send i (countFrame wire id n) ∈ s.handlers.flatten) → n = s.count id
  | _ => True

variable {wire} {id : String} {n : Nat}

theorem updateFrame_counted (id : String) (n : Nat) :
    Clojure.updateFrame wire.jvm wire.same (some id) (counted n) =
      .ok (Clojure.frame wire.jvm (some id) (Clojure.updateMessage (counted n)) []) := by
  have hsendable : Clojure.Sendable (counted n) :=
    { wf := wf_dict_iff.mpr ⟨by simp, List.forall_mem_singleton.mpr rfl⟩
      json := rfl
      container := rfl
      raw := fun leaf hleaf => absurd hleaf List.not_mem_nil
      nesting := le_of_eq_of_le (b := 0) rfl (Nat.zero_le _)
      lists := listsFit_dict (by simpa using listsFit_scalar (.int n)) }
  exact Clojure.updateFrame_ok hsendable (some id)

/-- An object that reads as one with a single key is that object. -/
theorem eq_singleton_of_equiv {own : Bindings} {key : Key} {s : Scalar}
    (hwf : (Value.dict own).Wf) (h : Value.dict own ≈ .dict [(key, .scalar s)]) :
    own = [(key, .scalar s)] := by
  have hnodup := (wf_dict_iff.mp hwf).1
  obtain ⟨value, hvalue, hequiv⟩ := exists_lookup_of_equiv h (k := key) (y := .scalar s) (by simp)
  rw [eq_scalar_of_equiv hequiv] at hvalue
  have hkey : ∀ kv ∈ own, kv.1 = key := by
    intro kv hkv
    by_contra hne
    have hnone : own.lookup kv.1 = none :=
      lookup_eq_none_of_equiv h (by rw [Dict.lookup_cons_ne hne, List.lookup_nil])
    rw [(Dict.lookup_eq_some_iff hnodup).mpr hkv] at hnone
    cases hnone
  cases own with
  | nil => cases hvalue
  | cons head tail =>
      cases tail with
      | nil =>
          have hmem := Dict.mem_of_lookup hvalue
          rw [List.mem_singleton] at hmem
          rw [← hmem]
      | cons second rest =>
          have hfirst := hkey head (by simp)
          have hsecond := hkey second (by simp)
          rw [Dict.keys, List.map_cons, List.map_cons, hfirst, hsecond] at hnodup
          simp at hnodup

theorem receive_counted (model : Model) {msg : Value} (hwf : msg.Wf)
    (h : msg ≈ Clojure.updateMessage (counted n)) :
    model.receive msg [] =
      .ok ({ model with state := assign model.state (.str "count") (.int n) },
        [.change (.str "count") (.int n)]) := by
  obtain ⟨data, rfl⟩ := Cositos.exists_dict_of_equiv h
  obtain ⟨method, hmethod, hmethodequiv⟩ :=
    exists_lookup_of_equiv h (k := .str "method") (y := .str "update") rfl
  obtain ⟨state, hstate, hstateequiv⟩ :=
    exists_lookup_of_equiv h (k := .str "state") (y := counted n) rfl
  obtain ⟨paths, hpaths, hpathsequiv⟩ :=
    exists_lookup_of_equiv h (k := .str "buffer_paths") (y := .list []) rfl
  rw [eq_scalar_of_equiv hmethodequiv] at hmethod
  obtain ⟨own, rfl⟩ := Cositos.exists_dict_of_equiv hstateequiv
  rw [eq_singleton_of_equiv ((wf_dict_iff.mp hwf).2 _ (Dict.mem_of_lookup hstate)) hstateequiv]
    at hstate
  obtain ⟨xs, rfl, hxs⟩ := exists_list_of_equiv hpathsequiv
  rw [List.forall₂_nil_right_iff.mp hxs] at hpaths
  simp only [Model.receive, Model.incoming, getProp_own data "method" (by decide),
    getProp_own data "state" (by decide), getProp_own data "buffer_paths" (by decide), hmethod,
    hstate, hpaths]
  rfl

/-- A page that hears a counter shows it in the widget of that id. -/
theorem hear_countFrame (hwire : wire.Faithful) {id' : String} (hid : id' ∈ ids)
    (hn : n ≤ 9007199254740992) (model : Model) :
    hear wire (countFrame wire id' n) (id, model) =
      (id, if id' = id then { model with state := assign model.state (.str "count") (.int n) }
        else model) := by
  obtain ⟨v, hread, hequiv, hwf⟩ := hwire.counts id' hid n hn
  have hcarries : wire.jvm.Carries wire.js (envelope (some id')
      (Clojure.updateMessage (counted n)) (texts [])) := ⟨v, hread, hequiv⟩
  obtain ⟨msg, hholds, hmsg⟩ := holds_carried hwire.atob hcarries
  have hdata : countFrame wire id' n = .str (clayPrefix ++ wire.jvm.write
      (envelope (some id') (Clojure.updateMessage (counted n)) (texts []))) := rfl
  -- the message is a part of what was read, so it repeats no key
  have hmsgwf : msg.Wf := by
    obtain ⟨text, fields, _, htext, hfields, _, hlookup, _⟩ := hholds
    have hsame : text = wire.jvm.write
        (envelope (some id') (Clojure.updateMessage (counted n)) (texts [])) := by
      simpa using htext.symm
    rw [hsame] at hfields
    obtain rfl := Option.some.inj (hread.symm.trans hfields)
    exact (wf_dict_iff.mp hwf).2 _ (Dict.mem_of_lookup hlookup)
  rw [hear, hdata, onFrame_holds hholds]
  by_cases hsame : id' = id
  · have hhears : ClayChannel.hears ⟨some id, true, []⟩ [some ⟨some id', msg, []⟩] =
        [(msg, [])] := by simp [ClayChannel.hears, carried, hsame]
    simp only [hhears, ClayChannel.deliver, List.nil_append, List.foldl_cons, List.foldl_nil,
      List.map_nil, receive_counted model hmsgwf hmsg, if_pos hsame]
  · have hhears : ClayChannel.hears ⟨some id, true, []⟩ [some ⟨some id', msg, []⟩] = [] := by
      simp [ClayChannel.hears, carried, hsame]
    simp only [hhears, ClayChannel.deliver, List.append_nil, List.foldl_nil, if_neg hsame]

theorem hear_foreign {data : Value} (h : Foreign data) (widget : String × Model) :
    hear wire data widget = widget := by
  have hholds : Holds wire.js wire.atob data none := h
  rw [hear, onFrame_holds hholds]
  rfl

theorem onReceive_click (hwire : wire.Faithful) (hid : id ∈ ids) (state : List (String × Nat)) :
    onReceive wire state (clickFrame wire id) =
      .ok (if id ∈ Dict.keys state then [.swap id, .deref id] else []) := by
  obtain ⟨v, hread, hequiv, hwf⟩ := hwire.increments id hid
  have hcarries : wire.js.Carries wire.jvm (envelope (some id)
      (.dict (Model.send (.dict [(.str "kind", .str "increment")]) []).1) (texts [])) :=
    ⟨v, hread, hequiv⟩
  obtain ⟨msg, hparse, hmsg⟩ := Clojure.parseFrame_carried hwire.decode hcarries
  have hdata : clickFrame wire id = .str (clayPrefix ++ wire.js.write (envelope (some id)
      (.dict (Model.send (.dict [(.str "kind", .str "increment")]) []).1) (texts []))) := rfl
  obtain ⟨data, rfl⟩ := Cositos.exists_dict_of_equiv hmsg
  obtain ⟨method, hmethod, hmethodequiv⟩ :=
    exists_lookup_of_equiv hmsg (k := .str "method") (y := .str "custom") rfl
  obtain ⟨content, hcontent, hcontentequiv⟩ := exists_lookup_of_equiv hmsg (k := .str "content")
    (y := .dict [(.str "kind", .str "increment")]) rfl
  obtain ⟨fields, rfl⟩ := Cositos.exists_dict_of_equiv hcontentequiv
  obtain ⟨kind, hkind, hkindequiv⟩ :=
    exists_lookup_of_equiv hcontentequiv (k := .str "kind") (y := .str "increment") rfl
  rw [eq_scalar_of_equiv hmethodequiv] at hmethod
  rw [eq_scalar_of_equiv hkindequiv] at hkind
  have hmessage : Protocol.parseMessage (.dict data) = .custom (.dict fields) := by
    simp [Protocol.parseMessage, Protocol.get, hmethod, hcontent]
  have hinbound : ∀ buffers, Clojure.applyInbound ⟨.str id, .dict data, buffers⟩ =
      .ok (.custom (.dict fields)) := by
    intro buffers
    simp only [Clojure.applyInbound, hmessage]
  have hget : Clojure.get (.dict fields) (.str "kind") = .str "increment" := by
    rw [Clojure.get, hkind]
    rfl
  simp only [onReceive, hdata, hparse, hinbound, bind, Except.bind, idValue, hget]
  rfl

end ClayNotebook

end Cositos
