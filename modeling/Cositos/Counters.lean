/-
The counters of the Clay notebook, each as a register that handlers bump, read and publish: how
many increments are counted, and what the pages show, in every order in which things happen.
-/
import Cositos.Broadcasts
import Cositos.Notebook
import Cositos.Runs
import Mathlib.Data.Nat.SuccPred

namespace Cositos

open Value

namespace ClayNotebook

open Clay Front

variable {wire : Wire} {s : Notebook} {id : String}

/-! ### A counter as a register -/

open Broadcasts

/-- A value as a count. -/
def asCount : Option Value → ℕ
  | some (.int n) => n.toNat
  | _ => 0

variable (wire)

/-- The count that a frame brings the widget of an id. -/
def brings (id : String) (data : Value) : Option ℕ :=
  match (hear wire data (id, Model.new [])).2.state.lookup (.str "count") with
  | some (.int n) => some n.toNat
  | _ => none

/-- What an instruction does to one counter. -/
def op (id : String) : Instruction → Option (Op ℕ)
  | .swap id' => if id' = id then some .bump else none
  | .deref id' => if id' = id then some .read else none
  | .broadcast id' n => if id' = id then some (.publish n) else none
  | .send i data => (brings wire id data).map (.tell i)

/-- A page as a viewer of a counter. -/
def viewer (id : String) (client : Client) : ℕ × List ℕ :=
  (asCount (client.shows id), client.inbox.filterMap (brings wire id))

/-- The system, as far as one counter goes. -/
def view (id : String) (s : Notebook) : Register ℕ where
  value := s.count id
  tasks := s.handlers.map (List.filterMap (op wire id))
  viewers := s.clients.map (viewer wire id)

/-- How many of these frames ask to increment a counter. -/
def asks (id : String) (frames : List Value) : ℕ :=
  frames.countP fun data => wants wire data = some id

/-- What the pages sent and the server has not taken. -/
def Notebook.unheard (s : Notebook) : List Value := s.clients.flatMap Client.outbox

/-! ### Sound systems -/

/-- A page that shows counts, and to which counts up to a bound are on their way. -/
structure Client.Sound (bound : ℕ) (client : Client) : Prop where
  widgets : Dict.keys client.widgets = ids
  shows : ∀ id ∈ ids, ∃ n : ℕ, client.shows id = some (.int n)
  inbox : ∀ data ∈ client.inbox, Foreign data ∨
    ∃ id ∈ ids, ∃ n ≤ bound, data = countFrame wire id n

/-- An instruction about a counter, with a count up to a bound. -/
def Instruction.Sound (bound : ℕ) : Instruction → Prop
  | .swap id | .deref id => id ∈ ids
  | .broadcast id n => id ∈ ids ∧ n ≤ bound
  | .send _ data => ∃ id ∈ ids, ∃ n ≤ bound, data = countFrame wire id n

/-- The parts of the system are in order. -/
structure Tidy (s : Notebook) : Prop where
  keys : Dict.keys s.state = ids
  clients : ∀ client ∈ s.clients, client.Sound wire s.sent.length
  handlers : ∀ instruction ∈ s.handlers.flatten, instruction.Sound wire s.sent.length

/-- Each increment that was sent is in an outbox, with a handler, or counted. -/
structure Sound (s : Notebook) : Prop extends Tidy wire s where
  exact : ∀ id ∈ ids, s.count id + (view wire id s).bumps + asks wire id s.unheard =
    asks wire id s.sent

variable {wire}

theorem exists_split {α : Type} {l : List α} {i : ℕ} {a : α} (h : l[i]? = some a) :
    ∃ front back, l = front ++ a :: back ∧ ∀ b, l.set i b = front ++ b :: back := by
  obtain ⟨hi, rfl⟩ := List.getElem?_eq_some_iff.mp h
  have hset : ∀ b, l.set i b = l.take i ++ b :: l.drop (i + 1) := fun b => by
    rw [List.set_eq_take_append_cons_drop, if_pos hi]
  refine ⟨l.take i, l.drop (i + 1), ?_, hset⟩
  rw [← hset, List.set_getElem_self]

theorem hear_fst (data : Value) (widget : String × Model) :
    (hear wire data widget).1 = widget.1 := by
  unfold hear
  split <;> rfl

theorem map_set_of_eq {α β : Type} (f : α → β) {l : List α} {i : ℕ} {a b : α}
    (h : l[i]? = some a) (hab : f b = f a) : (l.set i b).map f = l.map f := by
  obtain ⟨front, back, hl, hset⟩ := exists_split h
  rw [hset, hl, List.map_append, List.map_cons, hab, List.map_append, List.map_cons]

theorem asks_set (wire : Wire) {client : Client} {i : ℕ} (h : s.clients[i]? = some client)
    (client' : Client) (id : String) :
    asks wire id ((s.clients.set i client').flatMap Client.outbox) +
      asks wire id client.outbox = asks wire id s.unheard + asks wire id client'.outbox := by
  obtain ⟨front, back, hclients, hset⟩ := exists_split h
  rw [hset, Notebook.unheard, hclients]
  simp only [asks, List.flatMap_append, List.flatMap_cons, List.countP_append]
  omega

theorem asks_append (id : String) (frames frames' : List Value) :
    asks wire id (frames ++ frames') = asks wire id frames + asks wire id frames' :=
  List.countP_append

/-- Hearing a frame keeps the ids of the widgets. -/
theorem lookup_hear (data : Value) (widgets : List (String × Model)) (id : String) :
    (widgets.map (hear wire data)).lookup id =
      (widgets.lookup id).map fun model => (hear wire data (id, model)).2 := by
  induction widgets with
  | nil => rfl
  | cons widget widgets ih =>
      obtain ⟨id', model⟩ := widget
      have hpair : hear wire data (id', model) = (id', (hear wire data (id', model)).2) :=
        Prod.ext (hear_fst data (id', model)) rfl
      rw [List.map_cons, hpair]
      by_cases hid : id = id'
      · subst hid
        rw [List.lookup_cons_self, List.lookup_cons_self, Option.map_some]
      · rw [Dict.lookup_cons_ne hid, Dict.lookup_cons_ne hid, ih]

theorem keys_hear (data : Value) (widgets : List (String × Model)) :
    Dict.keys (widgets.map (hear wire data)) = Dict.keys widgets := by
  rw [Dict.keys, List.map_map]
  exact List.map_congr_left fun widget _ => hear_fst data widget

theorem brings_foreign {data : Value} (h : Foreign data) (id : String) :
    brings wire id data = none := by
  rw [brings, hear_foreign h]
  rfl

theorem brings_countFrame (hwire : wire.Faithful) (id : String) {id' : String}
    (hid : id' ∈ ids) {n : ℕ} (hn : n ≤ 9007199254740992) :
    brings wire id (countFrame wire id' n) = if id' = id then some n else none := by
  rw [brings, hear_countFrame hwire hid hn]
  split_ifs with hsame
  · rfl
  · rfl

/-- A handler increments a counter and broadcasts it, or does nothing. -/
theorem handler_cases (wire : Wire) (state : List (String × Nat)) (data : Value) :
    handler wire state data = [] ∨
      ∃ id ∈ Dict.keys state, handler wire state data = [.swap id, .deref id] := by
  rw [handler]
  cases hparse : Clojure.parseFrame wire.jvm wire.decode data with
  | error e => exact Or.inl (by simp [onReceive, hparse, bind, Except.bind, Except.toOption])
  | ok parsed? =>
      cases parsed? with
      | none =>
          simp only [onReceive, hparse, bind, Except.bind]
          exact Or.inl rfl
      | some parsed =>
          cases hinbound : Clojure.applyInbound parsed with
          | error e =>
              simp only [onReceive, hparse, hinbound, bind, Except.bind]
              exact Or.inl rfl
          | ok message =>
              simp only [onReceive, hparse, hinbound, bind, Except.bind]
              split
              · split
                · split_ifs with hid
                  · exact Or.inr ⟨_, hid, rfl⟩
                  · exact Or.inl rfl
                · exact Or.inl rfl
              · exact Or.inl rfl

/-- What a handler of a frame does to a counter is what the frame wants. -/
theorem filterMap_handler (wire : Wire) {state : List (String × Nat)}
    (hkeys : Dict.keys state = ids) (data : Value) (id : String) :
    (handler wire state data).filterMap (op wire id) =
      if wants wire data = some id then [.bump, .read] else [] := by
  have hsame : onReceive wire (ids.map fun id => (id, 0)) data = onReceive wire state data := by
    simp only [onReceive, hkeys]
    rfl
  rw [wants, hsame]
  have hcases := handler_cases wire state data
  rw [handler] at hcases ⊢
  cases hresult : onReceive wire state data with
  | error e => rfl
  | ok task =>
      rw [hresult] at hcases
      rcases hcases with hnil | ⟨id', _, hsome⟩
      · have htask : task = [] := hnil
        subst htask
        rfl
      · have htask : task = [.swap id', .deref id'] := hsome
        subst htask
        by_cases hid : id' = id
        · subst hid
          simp [Except.toOption, op]
        · simp [Except.toOption, op, hid]

/-! ### One step -/

theorem Client.Sound.mono {client : Client} {bound bound' : ℕ} (h : client.Sound wire bound)
    (hle : bound ≤ bound') : client.Sound wire bound' where
  widgets := h.widgets
  shows := h.shows
  inbox data hdata := (h.inbox data hdata).imp_right fun ⟨id, hid, n, hn, heq⟩ =>
    ⟨id, hid, n, hn.trans hle, heq⟩

theorem Instruction.Sound.mono {instruction : Instruction} {bound bound' : ℕ}
    (h : instruction.Sound wire bound) (hle : bound ≤ bound') : instruction.Sound wire bound' := by
  cases instruction with
  | swap id | deref id => exact h
  | broadcast id n => exact ⟨h.1, h.2.trans hle⟩
  | send i data =>
      obtain ⟨id, hid, n, hn, rfl⟩ := h
      exact ⟨id, hid, n, hn.trans hle, rfl⟩

theorem count_le_sent (h : Sound wire s) (hid : id ∈ ids) : s.count id ≤ s.sent.length := by
  have hexact := h.exact id hid
  have hle : asks wire id s.sent ≤ s.sent.length := List.countP_le_length
  omega

theorem sound_mount (bound : ℕ) : ({ widgets := mount } : Client).Sound wire bound where
  widgets := rfl
  shows id hid := ⟨0, by
    rcases List.mem_cons.mp hid with rfl | hid
    · rfl
    · rw [List.mem_singleton.mp hid]
      rfl⟩
  inbox := by simp

theorem Client.Sound.shows_hear (hwire : wire.Faithful) {client : Client} {bound : ℕ}
    {data : Value} (hbound : bound ≤ 9007199254740992)
    (hdata : Foreign data ∨ ∃ id ∈ ids, ∃ n ≤ bound, data = countFrame wire id n)
    (h : client.Sound wire bound) (hid : id ∈ ids) :
    ({ client with widgets := client.widgets.map (hear wire data) } : Client).shows id =
      match brings wire id data with
      | some n => some (.int n)
      | none => client.shows id := by
  obtain ⟨model, hmodel⟩ : ∃ model, client.widgets.lookup id = some model := by
    obtain ⟨n, hn⟩ := h.shows id hid
    obtain ⟨model, hmodel, -⟩ := Option.bind_eq_some_iff.mp hn
    exact ⟨model, hmodel⟩
  simp only [Client.shows, lookup_hear, hmodel, Option.map_some, Option.bind_some]
  rcases hdata with hforeign | ⟨id', hid', n, hn, rfl⟩
  · rw [hear_foreign hforeign, brings_foreign hforeign]
  · rw [hear_countFrame hwire hid' (hn.trans hbound),
      brings_countFrame hwire id hid' (hn.trans hbound)]
    split_ifs with hsame
    · exact (lookup_assign (by decide) _).trans (if_pos rfl)
    · rfl

theorem Client.Sound.hear (hwire : wire.Faithful) {client : Client} {bound : ℕ} {data : Value}
    {rest : List Value} (hbound : bound ≤ 9007199254740992) (hinbox : client.inbox = data :: rest)
    (h : client.Sound wire bound) :
    ({ client with widgets := client.widgets.map (hear wire data), inbox := rest } : Client).Sound
      wire bound where
  widgets := (keys_hear data client.widgets).trans h.widgets
  shows id hid := by
    have hshows := h.shows_hear hwire hbound (h.inbox data (by simp [hinbox])) hid
    cases hbrings : brings wire id data with
    | some n =>
        rw [hbrings] at hshows
        exact ⟨n, hshows⟩
    | none =>
        rw [hbrings] at hshows
        obtain ⟨n, hn⟩ := h.shows id hid
        exact ⟨n, hshows.trans hn⟩
  inbox data' hdata' := h.inbox data' (by simp [hinbox, hdata'])

/-- What one counter sees of a step: nothing, or one step of its register. -/
inductive Moves (r : Register ℕ) : Option (Label ℕ) → Register ℕ → Prop
  | stays : Moves r none r
  | moves {label : Label ℕ} {r' : Register ℕ} (hstep : Step Nat.succ r label r') :
      Moves r (some label) r'

/-- How many increments are begun. -/
def begun (label : Option (Label ℕ)) : ℕ := (label.map Label.bumps).getD 0

theorem Moves.counted {r r' : Register ℕ} {label : Option (Label ℕ)} (h : Moves r label r') :
    r'.value + r'.bumps = r.value + r.bumps + begun label := by
  cases h with
  | stays => rfl
  | @moves label _ hstep =>
      obtain ⟨k, hvalue, hbumps⟩ := hstep.counted
      have hbegun : begun (some label) = label.bumps := rfl
      rw [hvalue, Nat.succ_iterate, hbegun]
      omega

/-- A step of the system is one of the register of each counter, and what is begun is taken from
what was sent. -/
def Shifts (wire : Wire) (id : String) (s s' : Notebook) (unhurried : Prop) : Prop :=
  ∃ label, Moves (view wire id s) label (view wire id s') ∧
    asks wire id s'.unheard + begun label + asks wire id s.sent =
      asks wire id s.unheard + asks wire id s'.sent ∧
    (unhurried → ∀ l ∈ label, Calm (view wire id s) l)

section Shifts

variable {unhurried : Prop} {data : Value}

theorem Shifts.exact {s' : Notebook} (h : Shifts wire id s s' unhurried)
    (hexact : s.count id + (view wire id s).bumps + asks wire id s.unheard =
      asks wire id s.sent) :
    s'.count id + (view wire id s').bumps + asks wire id s'.unheard = asks wire id s'.sent := by
  obtain ⟨label, hmoves, hasks, -⟩ := h
  have hcounted : s'.count id + (view wire id s').bumps =
      s.count id + (view wire id s).bumps + begun label := hmoves.counted
  omega

theorem Shifts.stays {s' : Notebook} (hview : view wire id s' = view wire id s)
    (hasks : asks wire id s'.unheard + asks wire id s.sent =
      asks wire id s.unheard + asks wire id s'.sent) : Shifts wire id s s' unhurried :=
  ⟨none, hview ▸ .stays, hasks, fun _ _ h => by cases h⟩

theorem shifts_connect (hid : id ∈ ids) : Shifts wire id s (step wire s .connect) unhurried := by
  have hopen : onOpen.filterMap (op wire id) = [.read] := by
    rcases List.mem_cons.mp hid with rfl | hid
    · rfl
    · rw [List.mem_singleton.mp hid]
      rfl
  have hviewer : viewer wire id { widgets := mount } = (0, []) := by
    rcases List.mem_cons.mp hid with rfl | hid
    · rfl
    · rw [List.mem_singleton.mp hid]
      rfl
  have hview : view wire id (step wire s .connect) =
      { view wire id s with
        tasks := (view wire id s).tasks ++ [[.read]]
        viewers := (view wire id s).viewers ++ [(0, [])] } := by
    simp only [view, step, List.map_append, List.map_cons, List.map_nil, hopen, hviewer]
    rfl
  refine ⟨some (.begins [.read]), hview ▸ .moves (.join ⟨trivial, by simp [Op.value?]⟩ (by simp)), ?_,
    fun _ l hl => ?_⟩
  · simp [Notebook.unheard, step, begun, Label.bumps, Op.isBump]
  · cases hl
    trivial

theorem shifts_transmit (i : ℕ) : Shifts wire id s (s.transmit i data) unhurried := by
  rw [Notebook.transmit]
  cases hclient : s.clients[i]? with
  | none => exact .stays rfl rfl
  | some client =>
      simp only
      split_ifs
      swap
      · exact .stays rfl rfl
      have hviewers := map_set_of_eq (viewer wire id) hclient
        (b := { client with outbox := client.outbox ++ [data] }) rfl
      have hasks := asks_set wire hclient
        { client with outbox := client.outbox ++ [data] } id
      rw [asks_append] at hasks
      refine .stays ?_ ?_
      · simp only [view, hviewers]
        rfl
      · simp only [Notebook.unheard, asks_append] at hasks ⊢
        omega

/-- A map over a list of which one element is changed. -/
theorem map_modify {α β : Type} {f : α → β} {g : α → α} {m : β → β} (h : ∀ a, f (g a) = m (f a))
    (l : List α) (i : ℕ) : (l.modify i g).map f = (l.map f).modify i m := by
  induction l generalizing i with
  | nil => simp
  | cons a l ih =>
      cases i with
      | zero => simp [h]
      | succ i => simp [ih]

theorem map_modify_eq {α β : Type} {f : α → β} {g : α → α} (h : ∀ a, f (g a) = f a)
    (l : List α) (i : ℕ) : (l.modify i g).map f = l.map f :=
  (map_modify (f := f) h l i).trans (List.modify_id i _)

theorem unheard_modify {g : Client → Client} (hg : ∀ client, (g client).outbox = client.outbox)
    (s : Notebook) (i : ℕ) :
    Notebook.unheard { s with clients := s.clients.modify i g } = s.unheard := by
  rw [Notebook.unheard, Notebook.unheard, List.flatMap_def, List.flatMap_def, map_modify_eq hg]

theorem unheard_post (s : Notebook) (i : ℕ) (data : Value) :
    (s.post i data).unheard = s.unheard :=
  unheard_modify (g := fun client => { client with inbox := client.inbox ++ [data] })
    (fun _ => rfl) s i

/-- What a page is sent reaches it as a viewer of a counter. -/
theorem viewer_post (wire : Wire) (id : String) (data : Value) (client : Client) :
    viewer wire id { client with inbox := client.inbox ++ [data] } =
      ((viewer wire id client).1,
        (viewer wire id client).2 ++ ((brings wire id data).map (fun n => [n])).getD []) := by
  cases hbrings : brings wire id data <;> simp [viewer, Client.shows, hbrings]

theorem view_post_none (hbrings : brings wire id data = none) (i : ℕ) :
    view wire id (s.post i data) = view wire id s := by
  have hviewer : ∀ client : Client,
      viewer wire id { client with inbox := client.inbox ++ [data] } = viewer wire id client :=
    fun client => by
      rw [viewer_post, hbrings]
      exact Prod.ext rfl (List.append_nil _)
  simp only [view, Notebook.post, map_modify_eq hviewer]
  rfl

theorem shifts_foreign (hdata : Foreign data) (i : ℕ) :
    Shifts wire id s (s.post i data) unhurried := by
  refine .stays (view_post_none (brings_foreign hdata id) i) ?_
  rw [unheard_post]
  rfl

theorem shifts_turn (i : ℕ) (isOpen : Bool) : Shifts wire id s (s.turn i isOpen) unhurried := by
  have hviewer : ∀ client : Client,
      viewer wire id { client with isOpen } = viewer wire id client := fun _ => rfl
  refine .stays ?_ ?_
  · simp only [view, Notebook.turn, map_modify_eq hviewer]
    rfl
  · have hunheard : (s.turn i isOpen).unheard = s.unheard :=
      unheard_modify (g := fun client => { client with isOpen }) (fun _ => rfl) s i
    rw [hunheard]
    rfl

theorem shifts_accept (hkeys : Dict.keys s.state = ids) (i : ℕ) :
    Shifts wire id s (s.accept wire i) unhurried := by
  rw [Notebook.accept]
  cases hclient : s.clients[i]? with
  | none => exact .stays rfl rfl
  | some client =>
      cases houtbox : client.outbox with
      | nil =>
          simp only [houtbox]
          exact .stays rfl rfl
      | cons frame rest =>
          simp only [houtbox]
          have htask := filterMap_handler wire hkeys frame id
          have hbegins : Begins ((handler wire s.state frame).filterMap (op wire id)) := by
            rw [htask]
            split_ifs
            · exact ⟨⟨by simp, trivial⟩, by simp [Op.value?]⟩
            · exact ⟨trivial, by simp⟩
          have hviewers := map_set_of_eq (viewer wire id) hclient
            (b := { client with outbox := rest }) rfl
          have hasks := asks_set wire hclient { client with outbox := rest } id
          have hview : view wire id { s with
              clients := s.clients.set i { client with outbox := rest }
              handlers := s.handlers ++ [handler wire s.state frame] } =
                { view wire id s with
                  tasks := (view wire id s).tasks ++
                    [(handler wire s.state frame).filterMap (op wire id)] } := by
            simp only [view, hviewers, List.map_append, List.map_cons, List.map_nil]
            rfl
          refine ⟨some (.begins ((handler wire s.state frame).filterMap (op wire id))),
            by rw [hview]; exact .moves (.begins hbegins), ?_, fun _ l hl => ?_⟩
          · rw [houtbox] at hasks
            have hcons : asks wire id (frame :: rest) = asks wire id rest +
                if wants wire frame = some id then 1 else 0 := by
              simp [asks, List.countP_cons]
            have hbegun : begun (some (.begins ((handler wire s.state frame).filterMap (op wire id)))) =
                if wants wire frame = some id then 1 else 0 := by
              rw [htask]
              split_ifs <;> rfl
            rw [hbegun]
            simp only [Notebook.unheard] at hasks ⊢
            omega
          · cases hl
            trivial

/-- The handlers, when one of them has done its next thing. -/
theorem exists_tasks (wire : Wire) (id : String) {k : ℕ} {instruction : Instruction}
    {rest : List Instruction} (h : s.handlers[k]? = some (instruction :: rest)) :
    ∃ front back : List (List (Op ℕ)),
      (view wire id s).tasks = front ++ (instruction :: rest).filterMap (op wire id) :: back ∧
        ∀ task : List Instruction,
          (s.handlers.set k task).map (List.filterMap (op wire id)) =
            front ++ task.filterMap (op wire id) :: back := by
  obtain ⟨front, back, hhandlers, hset⟩ := exists_split h
  refine ⟨front.map (List.filterMap (op wire id)), back.map (List.filterMap (op wire id)), ?_,
    fun task => ?_⟩
  · simp only [view, hhandlers, List.map_append, List.map_cons]
  · rw [hset, List.map_append, List.map_cons]

/-- A count that waits is still to be broadcast, or to be sent. -/
theorem mem_handlers_of_waits (hwire : wire.Faithful) (h : Sound wire s)
    (hlimit : s.sent.length ≤ 9007199254740992) {v : ℕ} (hwaits : (view wire id s).Waits v) :
    .broadcast id v ∈ s.handlers.flatten ∨
      ∃ i, .send i (countFrame wire id v) ∈ s.handlers.flatten := by
  obtain ⟨waiting, hwaiting, hvalue⟩ := hwaits
  obtain ⟨task, htask, hv⟩ := mem_pending_iff.mp hwaiting
  obtain ⟨handler, hhandler, rfl⟩ := List.mem_map.mp htask
  obtain ⟨instruction, hinstruction, hop⟩ := List.mem_filterMap.mp hv
  have hmem : instruction ∈ s.handlers.flatten :=
    List.mem_flatten.mpr ⟨handler, hhandler, hinstruction⟩
  cases instruction with
  | swap id' | deref id' =>
      rw [op] at hop
      split_ifs at hop
      cases hop
      cases hvalue
  | broadcast id' n =>
      rw [op] at hop
      split_ifs at hop with hid
      cases hop
      cases hvalue
      exact Or.inl (hid ▸ hmem)
  | send i data =>
      obtain ⟨n, hbrings, rfl⟩ := Option.map_eq_some_iff.mp hop
      cases hvalue
      obtain ⟨id', hid', n', hn', rfl⟩ := h.handlers _ hmem
      rw [brings_countFrame hwire id hid' (hn'.trans hlimit)] at hbrings
      split_ifs at hbrings with hid
      cases hbrings
      exact Or.inr ⟨i, hid ▸ hmem⟩

theorem unheard_advance (wire : Wire) (s : Notebook) (k : ℕ) :
    (s.advance wire k).unheard = s.unheard ∧ (s.advance wire k).sent = s.sent := by
  unfold Notebook.advance
  split
  · split_ifs <;> exact ⟨rfl, rfl⟩
  · exact ⟨rfl, rfl⟩
  · split <;> exact ⟨rfl, rfl⟩
  · exact ⟨unheard_post _ _ _, rfl⟩
  · exact ⟨rfl, rfl⟩

theorem asks_advance (s : Notebook) (k : ℕ) {label : Option (Label ℕ)} (hlabel : begun label = 0) :
    asks wire id (s.advance wire k).unheard + begun label + asks wire id s.sent =
      asks wire id s.unheard + asks wire id (s.advance wire k).sent := by
  obtain ⟨hunheard, hsent⟩ := unheard_advance wire s k
  rw [hunheard, hsent, hlabel, Nat.add_zero]

theorem sound_first (h : Sound wire s) {k : ℕ} {instruction : Instruction}
    {rest : List Instruction} (hhandler : s.handlers[k]? = some (instruction :: rest)) :
    instruction.Sound wire s.sent.length :=
  h.handlers instruction
    (List.mem_flatten.mpr ⟨_, List.mem_of_getElem? hhandler, List.mem_cons_self⟩)

theorem shifts_swap (h : Sound wire s) (hlimit : s.sent.length ≤ 9007199254740992) {k : ℕ}
    {id' : String} {rest : List Instruction}
    (hhandler : s.handlers[k]? = some (.swap id' :: rest)) :
    Shifts wire id s (s.advance wire k) unhurried := by
  obtain ⟨front, back, htasks, hset⟩ := exists_tasks wire id hhandler
  have hid' : id' ∈ ids := sound_first h hhandler
  have hcount : s.count id' ≠ maxLong := by
    have hle := count_le_sent h hid'
    unfold maxLong
    omega
  have hadvance : s.advance wire k =
      { s with
        state := Dict.set s.state id' (s.count id' + 1)
        handlers := s.handlers.set k rest } := by
    simp only [Notebook.advance, hhandler, if_neg hcount]
  by_cases hsame : id' = id
  · subst hsame
    have hop : op wire id' (.swap id') = some .bump := if_pos rfl
    rw [List.filterMap_cons_some hop] at htasks
    refine ⟨some .bump, ?_, asks_advance s k rfl, fun _ l hl => by cases hl; trivial⟩
    have hview : view wire id' (s.advance wire k) =
        { view wire id' s with
          value := (view wire id' s).value + 1
          tasks := front ++ rest.filterMap (op wire id') :: back } := by
      rw [hadvance]
      simp only [view, hset, Notebook.count, Dict.lookup_set, if_pos]
      rfl
    rw [hview]
    exact .moves (.bump htasks)
  · have hop : op wire id (.swap id') = none := if_neg hsame
    rw [List.filterMap_cons_none hop] at htasks
    refine ⟨none, ?_, asks_advance s k rfl, fun _ l hl => by cases hl⟩
    have hview : view wire id (s.advance wire k) = view wire id s := by
      rw [hadvance]
      simp only [view, hset] at htasks ⊢
      simp only [Notebook.count, Dict.lookup_set, if_neg (Ne.symm hsame), htasks]
    rw [hview]
    exact .stays

theorem shifts_deref (hwire : wire.Faithful) (h : Sound wire s)
    (hlimit : s.sent.length ≤ 9007199254740992) {k : ℕ} {id' : String} {rest : List Instruction}
    (hhandler : s.handlers[k]? = some (.deref id' :: rest)) :
    Shifts wire id s (s.advance wire k)
      (Unhurried wire s (.advance k) ∧ wire.ReachesAll) := by
  obtain ⟨front, back, htasks, hset⟩ := exists_tasks wire id hhandler
  have hadvance : s.advance wire k =
      { s with handlers :=
          s.handlers.set k (.broadcast id' (s.count id') :: rest) } := by
    simp only [Notebook.advance, hhandler]
  by_cases hsame : id' = id
  · subst hsame
    have hop : op wire id' (.deref id') = some .read := if_pos rfl
    rw [List.filterMap_cons_some hop] at htasks
    have hview : view wire id' (s.advance wire k) =
        { view wire id' s with
          tasks := front ++ (.publish (view wire id' s).value ::
            rest.filterMap (op wire id')) :: back } := by
      rw [hadvance]
      have hpublish : op wire id' (.broadcast id' (s.count id')) =
          some (.publish (s.count id')) := if_pos rfl
      simp only [view, hset, List.filterMap_cons_some hpublish]
      rfl
    refine ⟨some .read, by rw [hview]; exact .moves (.read htasks), asks_advance s k rfl,
      fun hunhurried l hl => ?_⟩
    cases hl
    exact fun v hv =>
      hunhurried.1 id' rest hhandler v (mem_handlers_of_waits hwire h hlimit hv)
  · have hop : op wire id (.deref id') = none := if_neg hsame
    have hpublish : op wire id (.broadcast id' (s.count id')) = none := if_neg hsame
    rw [List.filterMap_cons_none hop] at htasks
    refine ⟨none, ?_, asks_advance s k rfl, fun _ l hl => by cases hl⟩
    have hview : view wire id (s.advance wire k) = view wire id s := by
      rw [hadvance]
      simp only [view, hset, List.filterMap_cons_none hpublish] at htasks ⊢
      rw [htasks]
      rfl
    rw [hview]
    exact .stays

theorem advance_broadcast (wire : Wire) {k n : ℕ} {rest : List Instruction}
    (h : s.handlers[k]? = some (.broadcast id n :: rest)) :
    s.advance wire k =
      { s with handlers := s.handlers.set k <|
          (wire.recipients s.clients).map (.send · (countFrame wire id n)) ++ rest } := by
  simp only [Notebook.advance, h, updateFrame_counted]
  rfl

/-- What the sends of a frame do to a counter. -/
theorem filterMap_sends (targets : List ℕ) (data : Value) :
    (targets.map (Instruction.send · data)).filterMap (op wire id) =
      match brings wire id data with
      | some n => targets.map (.tell · n)
      | none => [] := by
  rw [List.filterMap_map]
  cases hbrings : brings wire id data with
  | none => exact List.filterMap_eq_nil_iff.mpr fun i _ => by simp [op, hbrings]
  | some n =>
      have hsome : ∀ i ∈ targets, (op wire id ∘ (Instruction.send · data)) i =
          (some ∘ (Op.tell · n)) i := fun i _ => by simp [op, hbrings]
      rw [List.filterMap_congr hsome, List.filterMap_eq_map]

theorem shifts_broadcast (hwire : wire.Faithful) (h : Sound wire s)
    (hlimit : s.sent.length ≤ 9007199254740992) {k : ℕ} {id' : String} {n : ℕ}
    {rest : List Instruction} (hhandler : s.handlers[k]? = some (.broadcast id' n :: rest)) :
    Shifts wire id s (s.advance wire k)
      (Unhurried wire s (.advance k) ∧ wire.ReachesAll) := by
  obtain ⟨front, back, htasks, hset⟩ := exists_tasks wire id hhandler
  obtain ⟨hid', hn⟩ : id' ∈ ids ∧ n ≤ s.sent.length := sound_first h hhandler
  have hadvance := advance_broadcast wire hhandler
  have hbrings := brings_countFrame hwire id hid' (hn.trans hlimit)
  by_cases hsame : id' = id
  · subst hsame
    have hop : op wire id' (.broadcast id' n) = some (.publish n) := if_pos rfl
    rw [List.filterMap_cons_some hop] at htasks
    rw [if_pos rfl] at hbrings
    refine ⟨some (.publish (wire.recipients s.clients)), ?_, asks_advance s k rfl,
      fun hquiet l hl => ?_⟩
    · have hview : view wire id' (s.advance wire k) =
          { view wire id' s with
            tasks := front ++ ((wire.recipients s.clients).map (.tell · n) ++
              rest.filterMap (op wire id')) :: back } := by
        rw [hadvance]
        simp only [view, hset, List.filterMap_append, filterMap_sends, hbrings]
        rfl
      rw [hview]
      exact .moves (.publish htasks)
    · cases hl
      intro i hi
      exact hquiet.2 _ i (by simpa [view] using hi)
  · have hop : op wire id (.broadcast id' n) = none := if_neg hsame
    rw [List.filterMap_cons_none hop] at htasks
    rw [if_neg hsame] at hbrings
    refine ⟨none, ?_, asks_advance s k rfl, fun _ l hl => by cases hl⟩
    have hview : view wire id (s.advance wire k) = view wire id s := by
      rw [hadvance]
      simp only [view, hset, List.filterMap_append, filterMap_sends, hbrings] at htasks ⊢
      rw [htasks]
      rfl
    rw [hview]
    exact .stays

theorem shifts_send {k i : ℕ} {data : Value} {rest : List Instruction}
    (hhandler : s.handlers[k]? = some (.send i data :: rest)) :
    Shifts wire id s (s.advance wire k) unhurried := by
  obtain ⟨front, back, htasks, hset⟩ := exists_tasks wire id hhandler
  have hadvance : s.advance wire k =
      { s with handlers := s.handlers.set k rest }.post i data := by
    simp only [Notebook.advance, hhandler]
  cases hbrings : brings wire id data with
  | none =>
      have hop : op wire id (.send i data) = none := by rw [op, hbrings, Option.map_none]
      rw [List.filterMap_cons_none hop] at htasks
      refine ⟨none, ?_, asks_advance s k rfl, fun _ l hl => by cases hl⟩
      have hview : view wire id (s.advance wire k) = view wire id s := by
        rw [hadvance, view_post_none hbrings]
        simp only [view, hset] at htasks ⊢
        rw [htasks]
        rfl
      rw [hview]
      exact .stays
  | some n =>
      have hop : op wire id (.send i data) = some (.tell i n) := by
        rw [op, hbrings, Option.map_some]
      rw [List.filterMap_cons_some hop] at htasks
      refine ⟨some .tell, ?_, asks_advance s k rfl, fun _ l hl => by cases hl; trivial⟩
      have hviewer : ∀ client : Client,
          viewer wire id { client with inbox := client.inbox ++ [data] } =
            (fun viewer : ℕ × List ℕ => (viewer.1, viewer.2 ++ [n])) (viewer wire id client) :=
        fun client => by rw [viewer_post, hbrings]; rfl
      have hview : view wire id (s.advance wire k) =
          { view wire id s with
            tasks := front ++ rest.filterMap (op wire id) :: back
            viewers := (view wire id s).viewers.modify i fun viewer =>
              (viewer.1, viewer.2 ++ [n]) } := by
        rw [hadvance]
        simp only [view, Notebook.post, hset, map_modify (f := viewer wire id)
          (m := fun viewer => (viewer.1, viewer.2 ++ [n])) hviewer]
        rfl
      rw [hview]
      exact .moves (.tell htasks)

theorem shifts_advance (hwire : wire.Faithful) (h : Sound wire s)
    (hlimit : s.sent.length ≤ 9007199254740992) (k : ℕ) :
    Shifts wire id s (s.advance wire k)
      (Unhurried wire s (.advance k) ∧ wire.ReachesAll) := by
  cases hhandler : s.handlers[k]? with
  | none =>
      have hsame : s.advance wire k = s := by simp only [Notebook.advance, hhandler]
      rw [hsame]
      exact .stays rfl rfl
  | some task =>
      cases task with
      | nil =>
          have hsame : s.advance wire k = s := by simp only [Notebook.advance, hhandler]
          rw [hsame]
          exact .stays rfl rfl
      | cons instruction rest =>
          cases instruction with
          | swap id' => exact shifts_swap h hlimit hhandler
          | deref id' => exact shifts_deref hwire h hlimit hhandler
          | broadcast id' n => exact shifts_broadcast hwire h hlimit hhandler
          | send i data => exact shifts_send hhandler

theorem shifts_deliver (hwire : wire.Faithful) (h : Sound wire s)
    (hlimit : s.sent.length ≤ 9007199254740992) (hid : id ∈ ids) (i : ℕ) :
    Shifts wire id s (s.deliver wire i) unhurried := by
  rw [Notebook.deliver]
  cases hclient : s.clients[i]? with
  | none => exact .stays rfl rfl
  | some client =>
      cases hinbox : client.inbox with
      | nil =>
          simp only [hinbox]
          exact .stays rfl rfl
      | cons data rest =>
          simp only [hinbox]
          have hsound := h.clients client (List.mem_of_getElem? hclient)
          have hshows := hsound.shows_hear hwire hlimit (hsound.inbox data (by simp [hinbox])) hid
          obtain ⟨client', hdef⟩ : ∃ client' : Client,
              { client with widgets := client.widgets.map (hear wire data), inbox := rest } =
                client' := ⟨_, rfl⟩
          rw [hdef]
          have hshows : client'.shows id = match brings wire id data with
              | some n => some (.int n)
              | none => client.shows id := by
            rw [← hdef]
            exact hshows
          have hrest : client'.inbox = rest := by rw [← hdef]
          have hasks := asks_set wire hclient client' id
          have hkept : asks wire id ((s.clients.set i client').flatMap Client.outbox) +
              asks wire id s.sent = asks wire id s.unheard + asks wire id s.sent := by
            have hsame : client'.outbox = client.outbox := by rw [← hdef]
            rw [hsame] at hasks
            omega
          cases hbrings : brings wire id data with
          | none =>
              have hviewer : viewer wire id client' = viewer wire id client := by
                rw [hbrings] at hshows
                simp only [viewer, hshows, hrest, hinbox, List.filterMap_cons_none hbrings]
              refine .stays ?_ hkept
              simp only [view, map_set_of_eq (viewer wire id) hclient hviewer]
              rfl
          | some n =>
              have hviewer : viewer wire id client' = (n, rest.filterMap (brings wire id)) := by
                rw [hbrings] at hshows
                simp only [viewer, hshows, hrest]
                rfl
              have hbefore : viewer wire id client =
                  (asCount (client.shows id), n :: rest.filterMap (brings wire id)) := by
                rw [viewer, hinbox, List.filterMap_cons_some hbrings]
              obtain ⟨front, back, hclients, hset⟩ := exists_split hclient
              have hviewers : (view wire id s).viewers = front.map (viewer wire id) ++
                  (asCount (client.shows id), n :: rest.filterMap (brings wire id)) ::
                    back.map (viewer wire id) := by
                simp only [view, hclients, List.map_append, List.map_cons, hbefore]
              refine ⟨some .see, .moves ?_, hkept, fun _ l hl => by cases hl; trivial⟩
              have hview : view wire id { s with clients := s.clients.set i client' } =
                  { view wire id s with
                    viewers := front.map (viewer wire id) ++
                      (n, rest.filterMap (brings wire id)) :: back.map (viewer wire id) } := by
                simp only [view, hset, List.map_append, List.map_cons, hviewer]
                rfl
              exact hview ▸ .see hviewers

end Shifts

/-! ### Runs -/

section Parts

variable {data : Value}

theorem tidy_connect (h : Tidy wire s) : Tidy wire (step wire s .connect) where
  keys := h.keys
  clients := List.forall_mem_append.mpr
    ⟨h.clients, List.forall_mem_singleton.mpr (sound_mount _)⟩
  handlers := by
    have hopen : ∀ instruction ∈ onOpen, instruction.Sound wire s.sent.length := by
      intro instruction hinstruction
      obtain ⟨id, hid, rfl⟩ := List.mem_map.mp hinstruction
      exact hid
    simp only [step, List.flatten_append, List.flatten_singleton]
    exact List.forall_mem_append.mpr ⟨h.handlers, hopen⟩

theorem tidy_transmit (h : Tidy wire s) (i : ℕ) : Tidy wire (s.transmit i data) := by
  rw [Notebook.transmit]
  cases hclient : s.clients[i]? with
  | none => exact h
  | some client =>
      simp only
      split_ifs
      swap
      · exact h
      have hle : s.sent.length ≤ (s.sent ++ [data]).length := by simp
      refine ⟨h.keys, fun client' hclient' => ?_, fun instruction hinstruction =>
        (h.handlers instruction hinstruction).mono hle⟩
      rcases List.mem_or_eq_of_mem_set hclient' with hold | rfl
      · exact (h.clients client' hold).mono hle
      · have hsound := (h.clients client (List.mem_of_getElem? hclient)).mono hle
        exact ⟨hsound.widgets, hsound.shows, hsound.inbox⟩

/-- One of the pages changes. -/
theorem tidy_modify (h : Tidy wire s) {g : Client → Client}
    (hg : ∀ client, client.Sound wire s.sent.length → (g client).Sound wire s.sent.length)
    (i : ℕ) : Tidy wire { s with clients := s.clients.modify i g } where
  keys := h.keys
  clients := by
    intro client hclient
    obtain ⟨j, hj⟩ := List.mem_iff_getElem?.mp hclient
    rw [List.getElem?_modify] at hj
    obtain ⟨old, hold, rfl⟩ := Option.map_eq_some_iff.mp hj
    have hsound := h.clients old (List.mem_of_getElem? hold)
    split_ifs
    · exact hg old hsound
    · exact hsound
  handlers := h.handlers

theorem tidy_post (h : Tidy wire s) (hdata : Foreign data ∨
    ∃ id ∈ ids, ∃ n ≤ s.sent.length, data = countFrame wire id n) (i : ℕ) :
    Tidy wire (s.post i data) :=
  tidy_modify (g := fun client => { client with inbox := client.inbox ++ [data] }) h
    (fun _ hsound => ⟨hsound.widgets, hsound.shows,
      List.forall_mem_append.mpr ⟨hsound.inbox, List.forall_mem_singleton.mpr hdata⟩⟩) i

theorem tidy_turn (h : Tidy wire s) (i : ℕ) (isOpen : Bool) : Tidy wire (s.turn i isOpen) :=
  tidy_modify (g := fun client => { client with isOpen }) h
    (fun _ hsound => ⟨hsound.widgets, hsound.shows, hsound.inbox⟩) i

theorem tidy_accept (h : Tidy wire s) (i : ℕ) : Tidy wire (s.accept wire i) := by
  rw [Notebook.accept]
  cases hclient : s.clients[i]? with
  | none => exact h
  | some client =>
      cases houtbox : client.outbox with
      | nil =>
          simp only [houtbox]
          exact h
      | cons frame rest =>
          simp only [houtbox]
          refine ⟨h.keys, fun client' hclient' => ?_, ?_⟩
          · rcases List.mem_or_eq_of_mem_set hclient' with hold | rfl
            · exact h.clients client' hold
            · have hsound := h.clients client (List.mem_of_getElem? hclient)
              exact ⟨hsound.widgets, hsound.shows, hsound.inbox⟩
          · have hhandler : ∀ instruction ∈ handler wire s.state frame,
                instruction.Sound wire s.sent.length := by
              intro instruction hinstruction
              rcases handler_cases wire s.state frame with hnil | ⟨id, hid, hsome⟩
              · rw [hnil] at hinstruction
                cases hinstruction
              · rw [h.keys] at hid
                rw [hsome, List.mem_cons, List.mem_singleton] at hinstruction
                rcases hinstruction with rfl | rfl <;> exact hid
            simp only [List.flatten_append, List.flatten_singleton]
            exact List.forall_mem_append.mpr ⟨h.handlers, hhandler⟩

/-- The handlers, when one of them has another task. -/
theorem forall_handlers_set {P : Instruction → Prop} {k : ℕ} {task : List Instruction}
    (h : ∀ instruction ∈ s.handlers.flatten, P instruction)
    (htask : ∀ instruction ∈ task, P instruction) :
    ∀ instruction ∈ (s.handlers.set k task).flatten, P instruction := by
  intro instruction hinstruction
  obtain ⟨handler, hhandler, hmem⟩ := List.mem_flatten.mp hinstruction
  rcases List.mem_or_eq_of_mem_set hhandler with hold | rfl
  · exact h instruction (List.mem_flatten.mpr ⟨handler, hold, hmem⟩)
  · exact htask instruction hmem

theorem tidy_advance (h : Sound wire s) (k : ℕ) : Tidy wire (s.advance wire k) := by
  have hrest : ∀ {instruction : Instruction} {rest : List Instruction},
      s.handlers[k]? = some (instruction :: rest) →
      ∀ other ∈ instruction :: rest, other.Sound wire s.sent.length := by
    intro instruction rest hhandler other hother
    exact h.handlers other (List.mem_flatten.mpr ⟨_, List.mem_of_getElem? hhandler, hother⟩)
  unfold Notebook.advance
  split
  · next id' rest hhandler =>
      obtain ⟨hid', htail⟩ := List.forall_mem_cons.mp (hrest hhandler)
      split_ifs
      · exact ⟨h.keys, h.clients, forall_handlers_set h.handlers (List.forall_mem_nil _)⟩
      · have hmem : id' ∈ Dict.keys s.state := by
          rw [h.keys]
          exact hid'
        exact ⟨(Dict.keys_set_of_mem hmem _).trans h.keys, h.clients,
          forall_handlers_set h.handlers htail⟩
  · next id' rest hhandler =>
      obtain ⟨hid', htail⟩ := List.forall_mem_cons.mp (hrest hhandler)
      have hfirst : (Instruction.broadcast id' (s.count id')).Sound wire s.sent.length :=
        ⟨hid', count_le_sent h hid'⟩
      exact ⟨h.keys, h.clients,
        forall_handlers_set h.handlers (List.forall_mem_cons.mpr ⟨hfirst, htail⟩)⟩
  · next id' n rest hhandler =>
      obtain ⟨⟨hid', hn⟩, htail⟩ := List.forall_mem_cons.mp (hrest hhandler)
      simp only [updateFrame_counted]
      refine ⟨h.keys, h.clients, forall_handlers_set h.handlers
        (List.forall_mem_append.mpr ⟨fun instruction hinstruction => ?_, htail⟩)⟩
      obtain ⟨i, _, rfl⟩ := List.mem_map.mp hinstruction
      exact ⟨id', hid', n, hn, rfl⟩
  · next i data rest hhandler =>
      obtain ⟨hdata, htail⟩ := List.forall_mem_cons.mp (hrest hhandler)
      have htidy : Tidy wire { s with handlers := s.handlers.set k rest } :=
        ⟨h.keys, h.clients, forall_handlers_set h.handlers htail⟩
      exact tidy_post htidy (Or.inr hdata) i
  · exact h.toTidy

theorem tidy_deliver (hwire : wire.Faithful) (h : Tidy wire s)
    (hlimit : s.sent.length ≤ 9007199254740992) (i : ℕ) : Tidy wire (s.deliver wire i) := by
  rw [Notebook.deliver]
  cases hclient : s.clients[i]? with
  | none => exact h
  | some client =>
      cases hinbox : client.inbox with
      | nil =>
          simp only [hinbox]
          exact h
      | cons data rest =>
          simp only [hinbox]
          refine ⟨h.keys, fun client' hclient' => ?_, h.handlers⟩
          rcases List.mem_or_eq_of_mem_set hclient' with hold | rfl
          · exact h.clients client' hold
          · exact (h.clients client (List.mem_of_getElem? hclient)).hear hwire hlimit hinbox

end Parts

theorem sent_le_step (wire : Wire) (s : Notebook) (a : Action) :
    s.sent.length ≤ (step wire s a).sent.length := by
  have htransmit : ∀ i data, s.sent.length ≤ (s.transmit i data).sent.length := by
    intro i data
    rw [Notebook.transmit]
    split
    · split_ifs <;> simp
    · exact le_rfl
  cases a with
  | connect | foreign | turn => exact le_rfl
  | click i id =>
      rw [step]
      split_ifs
      · exact htransmit i _
      · exact le_rfl
  | say i data => exact htransmit i data
  | accept i =>
      rw [step, Notebook.accept]
      split <;> try split
      all_goals exact le_rfl
  | advance k => exact (unheard_advance wire s k).2.symm ▸ le_rfl
  | deliver i =>
      rw [step, Notebook.deliver]
      split <;> try split
      all_goals exact le_rfl

/-- One step of a sound system, while a double holds the number of frames sent. -/
theorem Sound.step (hwire : wire.Faithful) (h : Sound wire s) {a : Action} (ha : a.Proper)
    (hlimit : (step wire s a).sent.length ≤ 9007199254740992) :
    Sound wire (step wire s a) ∧
      ∀ id ∈ ids, Shifts wire id s (step wire s a) (Unhurried wire s a ∧ wire.ReachesAll) := by
  have hlimit' := (sent_le_step wire s a).trans hlimit
  have hshifts : ∀ id ∈ ids, Shifts wire id s (ClayNotebook.step wire s a)
      (Unhurried wire s a ∧ wire.ReachesAll) := by
    intro id hid
    cases a with
    | connect => exact shifts_connect hid
    | click i id' =>
        rw [ClayNotebook.step]
        split_ifs
        · exact shifts_transmit i
        · exact .stays rfl rfl
    | say i data => exact shifts_transmit i
    | turn i isOpen => exact shifts_turn i isOpen
    | foreign i data => exact shifts_foreign ha i
    | accept i => exact shifts_accept h.keys i
    | advance k => exact shifts_advance hwire h hlimit' k
    | deliver i => exact shifts_deliver hwire h hlimit' hid i
  refine ⟨⟨?_, fun id hid => (hshifts id hid).exact (h.exact id hid)⟩, hshifts⟩
  cases a with
  | connect => exact tidy_connect h.toTidy
  | click i id' =>
      rw [ClayNotebook.step]
      split_ifs
      · exact tidy_transmit h.toTidy i
      · exact h.toTidy
  | say i data => exact tidy_transmit h.toTidy i
  | turn i isOpen => exact tidy_turn h.toTidy i isOpen
  | foreign i data => exact tidy_post h.toTidy (Or.inl ha) i
  | accept i => exact tidy_accept h.toTidy i
  | advance k => exact tidy_advance h k
  | deliver i => exact tidy_deliver hwire h.toTidy hlimit' i

end ClayNotebook

end Cositos
