/-
Runs of the Clay notebook: how many increments are counted and what the pages come to show, in
every order in which things happen.
-/
import Cositos.Counters
import Cositos.EmbedLoads

namespace Cositos

open Value

namespace ClayNotebook

open Clay Front Broadcasts

variable {wire : Wire} {s : Notebook} {id : String}

/-- What a step of a register keeps. -/
theorem Moves.keeps {P : Register ℕ → Prop} {r r' : Register ℕ} {label : Option (Label ℕ)}
    (h : Moves r label r') (hr : P r) (hstep : ∀ l ∈ label, Step Nat.succ r l r' → P r') :
    P r' := by
  cases h with
  | stays => exact hr
  | moves hmove => exact hstep _ rfl hmove

theorem view_start (wire : Wire) (hid : id ∈ ids) : view wire id start = { value := 0 } := by
  rcases List.mem_cons.mp hid with rfl | hid
  · rfl
  · rw [List.mem_singleton.mp hid]
    rfl

theorem sound_start (wire : Wire) : Sound wire start where
  keys := rfl
  clients := by simp [start]
  handlers := by simp [start]
  exact id hid := by
    have hcount : start.count id = 0 := congrArg Register.value (view_start wire hid)
    rw [view_start wire hid, hcount]
    rfl

/-- What every step of a register keeps holds of every counter wherever a run leads, while a
double holds the number of frames that were sent. -/
theorem reached_keeps (hwire : wire.Faithful) {P : Register ℕ → Prop} (hnew : P { value := 0 })
    {allowed : Notebook → Action → Prop} {unhurried : Prop}
    (hreaches : unhurried → wire.ReachesAll)
    (hallowed : ∀ s a, allowed s a → a.Proper ∧ (unhurried → Unhurried wire s a))
    (hstep : ∀ {r r' : Register ℕ} {l : Label ℕ},
      Step Nat.succ r l r' → (unhurried → Calm r l) → P r → P r')
    (hreached : Runs.Reached (step wire) allowed start s)
    (hlimit : s.sent.length ≤ 9007199254740992) :
    Sound wire s ∧ ∀ id ∈ ids, P (view wire id s) := by
  have hkept : s.sent.length ≤ 9007199254740992 →
      Sound wire s ∧ ∀ id ∈ ids, P (view wire id s) := by
    refine hreached.invariant
      (I := fun s => s.sent.length ≤ 9007199254740992 →
        Sound wire s ∧ ∀ id ∈ ids, P (view wire id s)) ?_ ?_
    · intro _
      refine ⟨sound_start wire, fun id hid => ?_⟩
      rw [view_start wire hid]
      exact hnew
    · intro s a ih ha hlimit'
      obtain ⟨hproper, hunhurried⟩ := hallowed s a ha
      obtain ⟨hsound, hP⟩ := ih ((sent_le_step wire s a).trans hlimit')
      obtain ⟨hsound', hshifts⟩ := hsound.step hwire hproper hlimit'
      refine ⟨hsound', fun id hid => ?_⟩
      obtain ⟨label, hmoves, -, hcalm⟩ := hshifts id hid
      exact hmoves.keeps (hP id hid) fun l hl hmove =>
        hstep hmove (fun hquiet => hcalm ⟨hunhurried hquiet, hreaches hquiet⟩ l hl) (hP id hid)
  exact hkept hlimit

/-- How many handlers have still to increment a counter. -/
def Notebook.swaps (s : Notebook) (id : String) : ℕ :=
  s.handlers.flatten.countP fun
    | .swap id' => id' = id
    | _ => false

theorem bumps_view (wire : Wire) (id : String) (s : Notebook) :
    (view wire id s).bumps = s.swaps id := by
  have hpending : (view wire id s).pending = s.handlers.flatten.filterMap (op wire id) :=
    List.filterMap_flatten.symm
  rw [Register.bumps, hpending, List.countP_filterMap, Notebook.swaps]
  refine List.countP_congr fun instruction _ => ?_
  cases instruction with
  | swap id' | deref id' | broadcast id' n =>
      rw [op]
      split_ifs with hid <;> simp [Op.isBump, hid]
  | send i data => cases hbrings : brings wire id data <;> simp [op, hbrings, Op.isBump]

end ClayNotebook

namespace CountersWitness

open ClayNotebook Clay Front

/-- Floats that all print as `0.5`. -/
def format : FloatText ℚ where
  repr _ := ['0', '.', '5']
  ofText _ := 1 / 2

/-- `json.dumps` and `json.loads`. -/
def library : JsonLibrary where
  write v := ((v.dumps format none).toOption).getD ""
  read := loads format

def wire : Wire where
  jvm := library
  js := library
  decode s := Base64.decode s.toList
  atob
    | .str s => Base64.decode s.toList
    | _ => none
  same := fun _ _ => true
  recipients clients := List.range clients.length

theorem escapes_self (text : List Char) : JsonText.Escapes text text := by
  induction text with
  | nil => exact .nil
  | cons c text ih => exact .keep c ih

theorem reads_printable {v : Value} (h : Printable format false v) : Reads library library v := by
  obtain ⟨text, hdumps, hloads⟩ := loads_dumps none h
  have hread := hloads text.toList [] [] (escapes_self _) (by simp) (by simp)
  rw [List.nil_append, List.append_nil, String.ofList_toList, h.plain_eq] at hread
  refine ⟨v, ?_, Setoid.refl v, h.wf⟩
  simp only [library, hdumps]
  exact hread

theorem faithful : wire.Faithful := by
  have hint : ∀ i, Printable format false (.int i) := fun i =>
    Embed.printable_scalar (by simp) (by simp)
  have hstr : ∀ s, Printable format false (.str s) := Embed.printable_str
  have hnil : Printable format false (.list []) := printable_list (by simp)
  have henvelope : ∀ id msg, Printable format false msg →
      Printable format false (envelope (some id) msg []) := fun id msg hmsg =>
    printable_dict_iff.mpr ⟨by simp, by simp [hmsg, hnil, hstr]⟩
  refine ⟨fun raw => by simp [wire, Base64.decode_encode],
    fun raw => by simp [wire, Base64.decode_encode], fun id _ n _ => ?_, fun id _ => ?_⟩
  · have hstate : Printable format false (counted n) :=
      printable_dict_iff.mpr ⟨by simp, by simp [hint]⟩
    have hupdate : Clojure.updateMessage (counted n) = .dict [(.str "method", .str "update"),
      (.str "state", counted n), (.str "buffer_paths", .list [])] := rfl
    rw [hupdate]
    exact reads_printable (henvelope id _
      (printable_dict_iff.mpr ⟨by simp, by simp [hstr, hstate, hnil]⟩))
  · have hcontent : Printable format false (.dict [(.str "kind", .str "increment")]) :=
      printable_dict_iff.mpr ⟨by simp, by simp [hstr]⟩
    have hsend : (Model.send (.dict [(.str "kind", .str "increment")]) []).1 =
      [(.str "method", .str "custom"), (.str "content", .dict [(.str "kind", .str "increment")])] :=
        rfl
    rw [hsend]
    exact reads_printable (henvelope id _
      (printable_dict_iff.mpr ⟨by simp, by simp [hstr, hcontent]⟩))

/-- One page, before any click, with a handler and frames on their way. -/
def opened (task : List Instruction) (inbox : List Value) : Notebook where
  state := [("a", 0), ("b", 0)]
  handlers := [task]
  clients := [{ widgets := mount, inbox }]

theorem read_deref (id : String) (hid : id ∈ ids) (task : List Instruction) (inbox : List Value) :
    step wire (opened (.deref id :: task) inbox) (.advance 0) =
      opened (.broadcast id 0 :: task) inbox := by
  rcases List.mem_cons.mp hid with rfl | hid
  · rfl
  · rw [List.mem_singleton.mp hid]
    rfl

theorem send_broadcast (id : String) (task : List Instruction) (inbox : List Value) :
    step wire (opened (.broadcast id 0 :: task) inbox) (.advance 0) =
      opened (.send 0 (countFrame wire id 0) :: task) inbox :=
  advance_broadcast wire (s := opened (.broadcast id 0 :: task) inbox) (k := 0) rfl

theorem post_send (data : Value) (task : List Instruction) (inbox : List Value) :
    step wire (opened (.send 0 data :: task) inbox) (.advance 0) = opened task (inbox ++ [data]) :=
  rfl

theorem deliver_countFrame (id : String) (hid : id ∈ ids) (inbox : List Value) :
    step wire (opened [] (countFrame wire id 0 :: inbox)) (.deliver 0) = opened [] inbox := by
  have hmount : mount.map (hear wire (countFrame wire id 0)) = mount := by
    refine (List.map_congr_left fun widget hwidget => ?_).trans (List.map_id _)
    obtain ⟨id', _, rfl⟩ := List.mem_map.mp hwidget
    rw [hear_countFrame faithful hid (by decide)]
    split_ifs
    · rfl
    · rfl
  simp [step, opened, Notebook.deliver, hmount]

/-- The page has heard both counters. -/
theorem reached_opened :
    Runs.Reached (step wire) (fun s a => a.Proper ∧ Unhurried wire s a) start (opened [] []) := by
  let allowed : Notebook → Action → Prop := fun s a => a.Proper ∧ Unhurried wire s a
  have hread : ∀ id inbox (later : List String),
      allowed (opened (.deref id :: later.map .deref) inbox) (.advance 0) := by
    intro id inbox later
    refine ⟨trivial, fun id' rest _ n hn => ?_⟩
    simp [opened] at hn
  have hsend : ∀ instruction task inbox, (∀ id, instruction ≠ .deref id) →
      allowed (opened (instruction :: task) inbox) (.advance 0) := by
    intro instruction task inbox hother
    refine ⟨trivial, fun id' rest hrest => ?_⟩
    exact absurd (List.cons.inj (Option.some.inj hrest)).1 (hother id')
  have r₁ : Runs.Reached (step wire) allowed start (opened [.deref "a", .deref "b"] []) :=
    Runs.Reached.step (a := Action.connect) .start ⟨trivial, trivial⟩
  have r₂ := Runs.Reached.step (a := Action.advance 0) r₁ (hread "a" [] ["b"])
  rw [read_deref "a" (by decide)] at r₂
  have r₃ := Runs.Reached.step (a := Action.advance 0) r₂ (hsend _ _ _ (by simp))
  rw [send_broadcast] at r₃
  have r₄ := Runs.Reached.step (a := Action.advance 0) r₃ (hsend _ _ _ (by simp))
  rw [post_send] at r₄
  have r₅ := Runs.Reached.step (a := Action.advance 0) r₄ (hread "b" _ [])
  rw [read_deref "b" (by decide)] at r₅
  have r₆ := Runs.Reached.step (a := Action.advance 0) r₅ (hsend _ _ _ (by simp))
  rw [send_broadcast] at r₆
  have r₇ := Runs.Reached.step (a := Action.advance 0) r₆ (hsend _ _ _ (by simp))
  rw [post_send] at r₇
  have r₈ := Runs.Reached.step (a := Action.deliver 0) r₇ ⟨trivial, trivial⟩
  rw [List.nil_append, List.singleton_append, deliver_countFrame "a" (by decide)] at r₈
  have r₉ := Runs.Reached.step (a := Action.deliver 0) r₈ ⟨trivial, trivial⟩
  rwa [deliver_countFrame "b" (by decide)] at r₉

end CountersWitness

namespace ClayNotebook

open Clay Front Broadcasts

/-- Whatever the order in which pages open, click and hear, and in which the handlers of the
server go on: each increment that was asked for is counted once, or is still with a handler or
on its way to the server, and no page shows more than was counted. -/
theorem increments_counted {wire : Wire} {s : Notebook} {id : String} (hwire : wire.Faithful)
    (hreached : Runs.Reached (step wire) (fun _ a => a.Proper) start s)
    (hlimit : s.sent.length ≤ 9007199254740992) (hid : id ∈ ids) :
    wants wire (clickFrame wire id) = some id ∧
      s.count id + s.swaps id + asks wire id s.unheard = asks wire id s.sent ∧
      ∀ client ∈ s.clients, ∃ n : ℕ, client.shows id = some (.int n) ∧ n ≤ s.count id := by
  have hallowed : ∀ (s : Notebook) (a : Action), a.Proper →
      a.Proper ∧ (False → Unhurried wire s a) := fun s a ha => ⟨ha, False.elim⟩
  obtain ⟨hsound, hbounded⟩ := reached_keeps hwire (P := Bounded) (bounded_new 0) False.elim
    hallowed (fun hstep _ => hstep.bounded Nat.le_succ) hreached hlimit
  refine ⟨?_, ?_, fun client hclient => ?_⟩
  · rw [wants, onReceive_click hwire hid, if_pos (by simpa [Dict.keys] using hid)]
  · rw [← bumps_view wire]
    exact hsound.exact id hid
  · obtain ⟨n, hn⟩ := (hsound.clients client hclient).shows id hid
    have hle := (hbounded id hid).viewers _ (List.mem_map_of_mem hclient) n
      (by simp [viewer, hn, asCount])
    exact ⟨n, hn, hle⟩

open CountersWitness in
/-- A page has clicked once its socket was open, and nothing has happened to the frame yet. -/
theorem increments_counted_click :
    let s := ([.connect, .turn 0 true, .click 0 "a"] : List Action).foldl (step wire) start
    wants wire (clickFrame wire "a") = some "a" ∧
      s.count "a" + s.swaps "a" + asks wire "a" s.unheard = asks wire "a" s.sent ∧
      ∀ client ∈ s.clients, ∃ n : ℕ, client.shows "a" = some (.int n) ∧ n ≤ s.count "a" :=
  increments_counted faithful
    (Runs.reached_foldl (by simp [Action.Proper]))
    (by simp [step, start, Notebook.transmit, Notebook.turn, ids]) (by decide)

/-- When a broadcast goes to every page and no handler reads a counter while an older value of it
waits to be broadcast or sent, the counts that reach a page never go down, and once the handlers
are done and a page has heard everything, it shows what was counted. -/
theorem pages_agree {wire : Wire} {s : Notebook} {id : String} (hwire : wire.Faithful)
    (hall : wire.ReachesAll)
    (hreached : Runs.Reached (step wire) (fun s a => a.Proper ∧ Unhurried wire s a) start s)
    (hlimit : s.sent.length ≤ 9007199254740992) (hid : id ∈ ids) {client : Client}
    (hclient : client ∈ s.clients) :
    (asCount (client.shows id) :: client.inbox.filterMap (brings wire id)).Pairwise (· ≤ ·) ∧
      (s.handlers.flatten = [] → client.inbox = [] →
        client.shows id = some (.int (s.count id))) := by
  have hallowed : ∀ (s : Notebook) (a : Action), a.Proper ∧ Unhurried wire s a →
      a.Proper ∧ (True → Unhurried wire s a) := fun s a ha => ⟨ha.1, fun _ => ha.2⟩
  obtain ⟨hsound, hkept⟩ := reached_keeps hwire (P := fun r => Rising r ∧ Fresh r)
    ⟨rising_new 0, fresh_new 0⟩ (fun _ => hall) hallowed
    (fun hstep hcalm h => ⟨hstep.rising Nat.le_succ (hcalm trivial) h.1,
      hstep.fresh (hcalm trivial) h.2⟩) hreached hlimit
  obtain ⟨hrising, hfresh⟩ := hkept id hid
  have hviewer : viewer wire id client ∈ (view wire id s).viewers := List.mem_map_of_mem hclient
  refine ⟨hrising.sorted _ hviewer, fun hdone hinbox => ?_⟩
  have hpending : (view wire id s).pending = [] := by
    have hflatten : (view wire id s).pending = s.handlers.flatten.filterMap (op wire id) :=
      List.filterMap_flatten.symm
    rw [hflatten, hdone, List.filterMap_nil]
  have hlatest : latest (viewer wire id client) = s.count id := hfresh.agree hpending _ hviewer
  obtain ⟨n, hn⟩ := (hsound.clients client hclient).shows id hid
  simp only [viewer, hinbox, List.filterMap_nil, latest, List.getLastD_nil, hn, asCount] at hlatest
  rw [hn, ← hlatest]
  rfl

open CountersWitness in
theorem pages_agree_opened :
    (asCount (({ widgets := mount } : Client).shows "a") ::
        ([] : List Value).filterMap (brings wire "a")).Pairwise (· ≤ ·) ∧
      ((opened [] []).handlers.flatten = [] → ([] : List Value) = [] →
        ({ widgets := mount } : Client).shows "a" = some (.int ((opened [] []).count "a"))) :=
  pages_agree faithful (fun _ _ hi => List.mem_range.mpr hi) reached_opened (by decide) (by decide) (List.mem_singleton_self _)

/-- A page opens and its counters are broadcast; a second page opens, and the counter `a` is read
for it. -/
def opening : List Action :=
  [.connect, .turn 0 true] ++ List.replicate 6 (.advance 0) ++ [.connect, .advance 1]

/-- The first page has `a` incremented and broadcast; then it is broadcast as it was read for the
second page. -/
def overtaking : List Action :=
  [.click 0 "a", .accept 0] ++ List.replicate 5 (.advance 2) ++ List.replicate 7 (.advance 1)

theorem foldl_opening {wire : Wire}
    (hrange : ∀ clients, wire.recipients clients = List.range clients.length) :
    opening.foldl (step wire) start =
    { state := [("a", 0), ("b", 0)]
      handlers := [[], [.broadcast "a" 0, .deref "b"]]
      clients := [{ widgets := mount, isOpen := true, inbox :=
          [countFrame wire "a" 0, countFrame wire "b" 0] },
        { widgets := mount }] } := by
  simp [opening, step, start, Notebook.advance, Notebook.turn, Notebook.post, onOpen, ids,
    updateFrame_counted, Notebook.count, countFrame, hrange, List.replicate]
  rfl

theorem foldl_overtaking {wire : Wire} (hwire : wire.Faithful)
    (hrange : ∀ clients, wire.recipients clients = List.range clients.length) :
    ∃ first, overtaking.foldl (step wire) (opening.foldl (step wire) start) =
      { state := [("a", 1), ("b", 0)]
        handlers := [[], [], []]
        clients := [first, { widgets := mount, inbox :=
          [countFrame wire "a" 1, countFrame wire "a" 0, countFrame wire "b" 0] }]
        sent := [clickFrame wire "a"] } := by
  have hhandler : handler wire [("a", 0), ("b", 0)] (clickFrame wire "a") =
      [.swap "a", .deref "a"] := by
    rw [handler, onReceive_click hwire (by decide)]
    rfl
  have hset : Dict.set [("a", 0), ("b", 0)] "a" 1 = [("a", 1), ("b", 0)] := rfl
  have hb : List.lookup "b" [("a", 1), ("b", 0)] = some 0 := rfl
  rw [foldl_opening hrange]
  simp [overtaking, step, Notebook.transmit, Notebook.accept, Notebook.advance, Notebook.post,
    ids, hhandler, updateFrame_counted, Notebook.count, countFrame, maxLong, hset, hb, hrange,
    List.replicate, List.range_succ]

/-- A page that hears a count after a later one goes on showing it. -/
theorem overtaken {wire : Wire} (hwire : wire.Faithful)
    (hrange : ∀ clients, wire.recipients clients = List.range clients.length) :
    ∃ s, Runs.Reached (step wire) (fun _ a => a.Proper) start s ∧ s.handlers.flatten = [] ∧
      s.count "a" = 1 ∧ ∃ client ∈ s.clients, client.inbox = [] ∧
        client.shows "a" = some (.int 0) := by
  have hears : ∀ id ∈ ids, ∀ n ≤ 1, ∀ id' model, hear wire (countFrame wire id n) (id', model) =
      (id', if id = id' then { model with state := assign model.state (.str "count") (.int n) }
        else model) :=
    fun id hid n hn id' model => hear_countFrame hwire hid (hn.trans (by decide)) model
  have hmount : ((mount.map (hear wire (countFrame wire "a" 1))).map
      (hear wire (countFrame wire "a" 0))).map (hear wire (countFrame wire "b" 0)) = mount := by
    simp only [mount, ids, List.map_cons, List.map_nil]
    rw [hears "a" (by decide) 1 le_rfl, hears "a" (by decide) 1 le_rfl,
      hears "a" (by decide) 0 (by decide), hears "a" (by decide) 0 (by decide),
      hears "b" (by decide) 0 (by decide), hears "b" (by decide) 0 (by decide)]
    rfl
  obtain ⟨first, hfirst⟩ := foldl_overtaking hwire hrange
  have hlast : ([.deliver 1, .deliver 1, .deliver 1] : List Action).foldl (step wire)
      (overtaking.foldl (step wire) (opening.foldl (step wire) start)) =
        { state := [("a", 1), ("b", 0)]
          handlers := [[], [], []]
          clients := [first, { widgets := mount }]
          sent := [clickFrame wire "a"] } := by
    rw [hfirst]
    simp only [List.foldl_cons, List.foldl_nil, step, Notebook.deliver, List.getElem?_cons_succ,
      List.getElem?_cons_zero, List.set_cons_succ, List.set_cons_zero, hmount]
  refine ⟨_, ?_, congrArg (fun s => s.handlers.flatten) hlast,
    congrArg (fun s => s.count "a") hlast, { widgets := mount }, ?_, rfl, rfl⟩
  · rw [← List.foldl_append, ← List.foldl_append]
    exact Runs.reached_foldl
      (by simp [opening, overtaking, Action.Proper])
  · rw [hlast]
    exact List.mem_cons_of_mem _ (List.mem_singleton_self _)

end ClayNotebook

end Cositos
