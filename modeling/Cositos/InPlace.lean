/-
The reducer of the Python core with the objects that it shares with its arguments: what it
leaves of an event and of the host state, and when that is what they were.
-/
import Cositos.Inbound
import Cositos.Overwrites

namespace Cositos

open Value

/-! ### The merge, told by where its paths lead -/

namespace Value

/-- The item that a segment can write below a label. -/
def Label.lastKeyOf : Label → Value → Option Key
  | .tuple _, _ => none
  | l, key => l.keyOf key

theorem Label.lastKeyOf_iff {l : Label} {key : Value} {k : Key} :
    l.lastKeyOf key = some k ↔ (∀ n, l ≠ .tuple n) ∧ l.keyOf key = some k := by
  cases l <;> simp [lastKeyOf]

theorem emptied_setItem {v key x w : Value} {k : Key} (h : v.setItem key x = .ok w)
    (hk : v.label.keyOf key = some k) :
    ∀ y, v.child k = some y → x.emptied = y.emptied → w.emptied = v.emptied := by
  intro y hy hxy
  cases v with
  | scalar s | bin b | tuple xs => cases h
  | dict kvs =>
      obtain ⟨k', hk', h⟩ := Port.bind_eq_ok_iff.mp h
      cases h
      obtain rfl : k' = k := by
        rw [label, keyOf_dict hk'] at hk
        exact Option.some.inj hk
      exact emptied_set hy hxy
  | list xs =>
      obtain ⟨n, hn, h⟩ := Port.bind_eq_ok_iff.mp h
      cases h
      obtain rfl : Key.int (n : Int) = k := by
        rw [label, keyOf_seq hn] at hk
        exact Option.some.inj hk
      rw [emptied, emptied, emptied_listSet hy hxy]

theorem emptied_withItem {v key x w : Value} {k : Key} (h : v.withItem key x = .ok w)
    (hk : v.label.keyOf key = some k) :
    ∀ y, v.child k = some y → x.emptied = y.emptied → w.emptied = v.emptied := by
  cases v with
  | tuple xs =>
      intro y hy hxy
      obtain ⟨n, hn, h⟩ := Port.bind_eq_ok_iff.mp h
      cases h
      obtain rfl : Key.int (n : Int) = k := Option.some.inj ((keyOf_seq hn).symm.trans hk)
      rw [emptied, emptied, emptied_listSet hy hxy]
  | scalar s | bin b | list xs | dict kvs => exact emptied_setItem h hk

end Value

namespace Buffers

/-- The body of the loop in `put_buffers`, told by where it goes. -/
def writer : Writer Value PyError where
  putAt := putAt
  getItem := Value.getItem
  setItem := Value.setItem
  withItem := Value.withItem
  keyOf := Label.keyOf
  lastKeyOf := Label.lastKeyOf
  putAt_nil _ _ := ⟨_, rfl⟩
  putAt_singleton _ _ _ := rfl
  putAt_cons _ _ _ _ hrest := putAt_cons hrest
  getItem_container _ _ _ h hc := getItem_container h hc
  getItem_of_keyOf _ _ _ _ hk hc := getItem_of_keyOf hk hc
  setItem_ok v key x w h := by
    obtain ⟨k, hk, hassigns⟩ := setItem_assigns h
    refine ⟨k, Label.lastKeyOf_iff.mpr ⟨fun n hn => ?_, hk⟩, hassigns, emptied_setItem h hk⟩
    cases v <;> first | cases h | cases hn
  setItem_of_keyOf _ _ _ x hk :=
    have hk := Label.lastKeyOf_iff.mp hk
    setItem_of_keyOf hk.1 hk.2 x
  withItem_ok v key x w h := by
    obtain ⟨k, hk, hassigns⟩ := withItem_assigns h
    exact ⟨k, hk, hassigns, emptied_withItem h hk⟩
  withItem_of_keyOf _ _ _ x hk := withItem_of_keyOf hk x
  container_of_keyOf l key k h := by cases l <;> first | rfl | cases h
  container_of_lastKeyOf l key k h := by cases l <;> first | rfl | cases h

/-- The place that a buffer path leads to. -/
def place (v path : Value) : Option Path := path.segments.toOption.bind (writer.place v)

end Buffers

namespace Value

/-- The value at a place. -/
def find : Value → Path → Option Value
  | v, [] => some v
  | v, k :: path => (v.child k).bind fun c => c.find path

theorem find_cons {v c : Value} {k : Key} (hc : v.child k = some c) (path : Path) :
    v.find (k :: path) = c.find path := by
  rw [find, hc, Option.bind_some]

theorem look_find {v c : Value} {front : Path} (h : v.find front = some c) (path : Path) :
    v.look (front ++ path) = c.look path := by
  induction front generalizing v with
  | nil =>
      cases h
      rfl
  | cons k front ih =>
      obtain ⟨d, hd, h⟩ := Option.bind_eq_some_iff.mp h
      rw [List.cons_append, look_cons_of_child hd, ih h]

theorem keyOf_of_child {v c : Value} {k : Key} (hc : v.child k = some c) :
    v.label.keyOf k.toValue = some k := by
  have hseq : ∀ xs : List Value, (Value.list xs).child k = some c →
      (Label.list xs.length).keyOf k.toValue = some k := by
    intro xs hx
    obtain ⟨n, rfl, hn⟩ := mem_enumItems_iff.mp (child_seq_iff.mp hx)
    have hlt := (List.getElem?_eq_some_iff.mp hn).1
    rw [Nat.zero_add]
    exact keyOf_seq (seqIndex_ofNat hlt)
  cases v with
  | scalar s | bin b => cases hc
  | dict kvs => exact keyOf_dict (hashKey_toValue k)
  | list xs => exact hseq xs hc
  | tuple xs =>
      rw [child_tuple] at hc
      exact hseq xs hc

end Value

namespace Buffers

/-- A path that starts with the way to an object does to it what the rest does. -/
theorem putAt_find {source c : Value} {front : Path} (h : source.find front = some c) (b : Binary)
    {rest : List Value} (hrest : rest ≠ []) :
    (∀ e, putAt b c rest = .error e →
      putAt b source (front.map Key.toValue ++ rest) = .error e) ∧
    ∀ c', putAt b c rest = .ok c' → ∃ source',
      putAt b source (front.map Key.toValue ++ rest) = .ok source' ∧
        source'.find front = some c' ∧
        ∀ j more, front ≠ [] → front.head? ≠ some j →
          source'.find (j :: more) = source.find (j :: more) := by
  induction front generalizing source with
  | nil =>
      cases h
      exact ⟨fun e he => he, fun c' hc' => ⟨c', hc', rfl, fun _ _ hne => absurd rfl hne⟩⟩
  | cons k front ih =>
      obtain ⟨d, hd, h⟩ := Option.bind_eq_some_iff.mp h
      obtain ⟨hfail, hdone⟩ := ih h
      have hcons : putAt b source ((k :: front).map Key.toValue ++ rest) = (do
          let child ← putAt b d (front.map Key.toValue ++ rest)
          source.withItem k.toValue child) := by
        rw [List.map_cons, List.cons_append, putAt_cons (by simp [hrest]), getItem_of_child hd]
        rfl
      rw [hcons]
      refine ⟨fun e he => by rw [hfail e he]; rfl, fun c' hc' => ?_⟩
      obtain ⟨d', hput, hfound, _⟩ := hdone c' hc'
      obtain ⟨source', hwith, hassigns⟩ := withItem_of_child hd d'
      refine ⟨source', by rw [hput]; exact hwith, ?_, fun j more _ hj => ?_⟩
      · rw [find, hassigns.2, if_pos rfl]
        exact hfound
      · rw [find, find, hassigns.2, if_neg fun heq => hj (by rw [heq]; rfl)]

/-- So does its place. -/
theorem place_find {source c : Value} {front : Path} (h : source.find front = some c)
    {rest : List Value} (hrest : rest ≠ []) {t : Path} :
    writer.place source (front.map Key.toValue ++ rest) = some t ↔
      ∃ path, writer.place c rest = some path ∧ t = front ++ path := by
  induction front generalizing source t with
  | nil =>
      cases h
      simp
  | cons k front ih =>
      obtain ⟨d, hd, h⟩ := Option.bind_eq_some_iff.mp h
      rw [List.map_cons, List.cons_append, Writer.place_cons (by simp [hrest])]
      have hkey : writer.keyOf source.label k.toValue = some k := keyOf_of_child hd
      constructor
      · rintro ⟨k', d', path, hk', hd', hpath, rfl⟩
        obtain rfl : k = k' := Option.some.inj (hkey.symm.trans hk')
        obtain rfl : d = d' := Option.some.inj (hd.symm.trans hd')
        obtain ⟨path', hpath', rfl⟩ := (ih h).mp hpath
        exact ⟨path', hpath', rfl⟩
      · rintro ⟨path, hpath, rfl⟩
        exact ⟨k, d, front ++ path, hkey, hd, (ih h).mpr ⟨path, hpath, rfl⟩, rfl⟩

end Buffers

/-- No object in the event binds a name twice. -/
def Event.Wf : Event → Prop
  | .inbound message _ => message.Wf
  | _ => True

/-! ### `dict` shares the values of what it is made from -/

namespace Lifecycle

/-- What a name of the fresh dict is bound to: the object at a place of its source, or a value
that is not the source's. -/
inductive Bound
  | shared (place : Path)
  | own (value : Value)

/-- A dict and the value that it has been made from. -/
structure SharedDict where
  source : Value
  names : List (Key × Bound)

namespace SharedDict

/-- What a pair of the source binds its name to: of a list and a tuple, the second item. -/
def boundItem (i : Key) (pair x : Value) : Bound :=
  match pair with
  | .list _ | .tuple _ => .shared [i, .int 1]
  | _ => .own x

/-- One turn of `dict` over the pairs of its source. -/
def bindPair (names : List (Key × Bound)) (item : Key × Value) :
    Except PyError (List (Key × Bound)) := do
  match ← item.2.iterate with
  | [key, x] => return Dict.set names (← key.hashKey) (boundItem item.1 item.2 x)
  | _ => .error (.valueError "dictionary update sequence element; 2 is required")

/-- `dict(source)`. -/
def make (source : Value) : Except PyError SharedDict :=
  match source with
  | .dict kvs => .ok ⟨source, kvs.map fun kv => (kv.1, .shared [kv.1])⟩
  | _ => do
      let pairs ← source.iterate
      let names ← (enumItems 0 pairs).foldlM bindPair []
      return ⟨source, names⟩

/-- The value that a name is bound to. -/
def value (s : SharedDict) : Bound → Value
  | .shared place => (s.source.find place).getD .none
  | .own value => value

/-- The dict by itself. -/
def bindings (s : SharedDict) : Bindings := s.names.map (Prod.map id s.value)

/-- The body of the loop in `put_buffers`, on the fresh dict. -/
def putAt (b : Binary) (s : SharedDict) : List Value → Except PyError SharedDict
  | [] => .error .indexError
  | [key] => do
      let k ← key.hashKey
      return { s with names := Dict.set s.names k (.own (.bin b)) }
  | key :: path => do
      let k ← key.hashKey
      match s.names.lookup k with
      | none => .error .keyError
      | some (.own value) => do
          let value ← Buffers.putAt b value path
          return { s with names := Dict.set s.names k (.own value) }
      | some (.shared place) => do
          let source ← Buffers.putAt b s.source (place.map Key.toValue ++ path)
          return { s with source }

/-- `put_buffers` on the fresh dict: what it raises, and what it leaves. -/
def putBuffers (s : SharedDict) : List Value → List Binary → Option PyError × SharedDict
  | [], [] => (none, s)
  | path :: bufferPaths, buffer :: buffers =>
      match path.segments >>= s.putAt buffer with
      | .error e => (some e, s)
      | .ok s => putBuffers s bufferPaths buffers
  | _, _ => (some (.valueError "zip() arguments have different lengths"), s)

end SharedDict

/-- The message with its `state` as it is now. -/
def withState (message state : Value) : Value :=
  match message with
  | .dict data =>
      if .str "state" ∈ Dict.keys data then .dict (Dict.set data (.str "state") state)
      else message
  | _ => message

/-- `_reduce_inbound`, and the message as it leaves it. -/
def reduceInboundInPlace (phase : Phase) (message : Value) (buffers : List Binary)
    (currentState : Bindings) (capabilities : TransportCapabilities) :
    Except PyError (Phase × List Effect) × Value :=
  match phase, Protocol.parseMessage message with
  | .opened, .update state bufferPaths =>
      match SharedDict.make state, bufferPaths.iterate with
      | .error e, _ => (.error e, message)
      | .ok _, .error e => (.error e, message)
      | .ok s, .ok paths =>
          let (raised, s) := s.putBuffers paths buffers
          (raised.elim (.ok (.opened, [.applyState s.bindings])) .error,
            withState message s.source)
  | _, _ => (reduceInbound phase message buffers currentState capabilities, message)

/-- `reduce`, with its event and the host state as it leaves them. -/
def reduceInPlace (phase : Phase) (event : Event) (currentState : Bindings)
    (capabilities : TransportCapabilities) :
    Except PyError (Phase × List Effect) × Event × Bindings :=
  match event with
  | .inbound message buffers =>
      let (result, message) :=
        reduceInboundInPlace phase message buffers currentState capabilities
      (result, .inbound message buffers, currentState)
  | event => (reduce phase event currentState capabilities, event, currentState)

/-! ### The dict by itself is merged as ever -/

namespace SharedDict

/-- Each name shares a place of its own, or is bound to a leaf. -/
structure Sound (s : SharedDict) : Prop where
  nodup : (Dict.keys s.names).Nodup
  found : ∀ k place, s.names.lookup k = some (.shared place) →
    place ≠ [] ∧ ∃ c, s.source.find place = some c
  apart : ∀ k k' place place', s.names.lookup k = some (.shared place) →
    s.names.lookup k' = some (.shared place') → place.head? = place'.head? → k = k'
  leaf : ∀ k value, s.names.lookup k = some (.own value) → value.isContainer = false

variable {s s' : SharedDict} {b : Binary}

theorem lookup_bindings (s : SharedDict) (k : Key) :
    s.bindings.lookup k = (s.names.lookup k).map s.value :=
  Dict.lookup_map_snd s.value s.names k

/-- A name gets a value that is not the source's. -/
theorem sound_own (h : Sound s) (k : Key) {value : Value} (hvalue : value.isContainer = false) :
    Sound { s with names := Dict.set s.names k (.own value) } := by
  have hshared : ∀ {j place},
      (Dict.set s.names k (.own value)).lookup j = some (.shared place) →
        s.names.lookup j = some (.shared place) := by
    intro j place hj
    rw [Dict.lookup_set] at hj
    split_ifs at hj
    · cases hj
    · exact hj
  refine ⟨Dict.nodup_keys_set h.nodup _ _, fun j place hj => h.found j place (hshared hj),
    fun j j' place place' hj hj' => h.apart j j' place place' (hshared hj) (hshared hj'), ?_⟩
  intro j x hj
  rw [Dict.lookup_set] at hj
  split_ifs at hj
  · cases hj
    exact hvalue
  · exact h.leaf j x hj

theorem map_value_update {names : List (Key × Bound)} (hnodup : (Dict.keys names).Nodup) {k : Key}
    {x : Bound} (hk : names.lookup k = some x) {f g : Bound → Value}
    (hother : ∀ j y, names.lookup j = some y → j ≠ k → g y = f y) :
    Dict.set (names.map (Prod.map id f)) k (g x) = names.map (Prod.map id g) := by
  induction names with
  | nil => cases hk
  | cons head names ih =>
      obtain ⟨k', y⟩ := head
      rw [Dict.keys_cons] at hnodup
      obtain ⟨hfresh, hnames⟩ := List.nodup_cons.mp hnodup
      have htail : ∀ j z, names.lookup j = some z → j ≠ k' := by
        rintro j z hz rfl
        exact hfresh (Dict.mem_keys_of_mem (Dict.mem_of_lookup hz))
      by_cases hsame : k' = k
      · subst hsame
        rw [List.lookup_cons_self] at hk
        cases hk
        have hrest : names.map (Prod.map id f) = names.map (Prod.map id g) := by
          apply List.map_congr_left
          rintro ⟨j, z⟩ hz
          have hlookup := (Dict.lookup_eq_some_iff hnames).mpr hz
          have hj := htail j z hlookup
          rw [Prod.map, Prod.map, hother j z (by rw [Dict.lookup_cons_ne hj, hlookup]) hj]
        simp [Dict.set, hrest]
      · rw [Dict.lookup_cons_ne (Ne.symm hsame)] at hk
        have hy := hother k' y List.lookup_cons_self hsame
        have hrest := ih hnames hk fun j z hz hj =>
          hother j z (by rw [Dict.lookup_cons_ne (htail j z hz), hz]) hj
        simp [Dict.set, hsame, hy, hrest]

theorem putAt_own {k : Key} {key value : Value} {rest : List Value} (hkey : key.hashKey = .ok k)
    (hrest : rest ≠ []) (hk : s.names.lookup k = some (.own value)) : s.putAt b (key :: rest) =
      (do
        let value ← Buffers.putAt b value rest
        return { s with names := Dict.set s.names k (.own value) }) := by
  cases rest with
  | nil => exact absurd rfl hrest
  | cons next rest => simp [putAt, hkey, hk, bind, Except.bind]

theorem putAt_shared {k : Key} {key : Value} {place : Path} {rest : List Value}
    (hkey : key.hashKey = .ok k) (hrest : rest ≠ [])
    (hk : s.names.lookup k = some (.shared place)) : s.putAt b (key :: rest) =
      (do
        let source ← Buffers.putAt b s.source (place.map Key.toValue ++ rest)
        return { s with source }) := by
  cases rest with
  | nil => exact absurd rfl hrest
  | cons next rest => simp [putAt, hkey, hk, bind, Except.bind]

/-- What one buffer can do. -/
inductive Puts (b : Binary) (s : SharedDict) : List Value → SharedDict → Prop
  | name {key : Value} {k : Key} (hkey : key.hashKey = .ok k) :
      Puts b s [key] { s with names := Dict.set s.names k (.own (.bin b)) }
  | object {key c c' source : Value} {k : Key} {place : Path} {rest : List Value}
      (hkey : key.hashKey = .ok k) (hrest : rest ≠ [])
      (hk : s.names.lookup k = some (.shared place)) (hfound : s.source.find place = some c)
      (hput : Buffers.putAt b c rest = .ok c')
      (hsource : Buffers.putAt b s.source (place.map Key.toValue ++ rest) = .ok source) :
      Puts b s (key :: rest) { s with source }

theorem putAt_cases (h : Sound s) (b : Binary) (segments : List Value) :
    (∃ e, s.putAt b segments = .error e ∧
      Buffers.putAt b (.dict s.bindings) segments = .error e) ∨
    ∃ s', s.putAt b segments = .ok s' ∧ Puts b s segments s' := by
  match segments with
  | [] => exact .inl ⟨_, rfl, rfl⟩
  | [key] =>
      cases hkey : key.hashKey with
      | error e =>
          refine .inl ⟨e, ?_, ?_⟩
          · rw [putAt, hkey]
            rfl
          · rw [Buffers.putAt, setItem, hkey]
            rfl
      | ok k =>
          refine .inr ⟨_, ?_, .name hkey⟩
          rw [putAt, hkey]
          rfl
  | key :: next :: rest =>
      cases hkey : key.hashKey with
      | error e =>
          refine .inl ⟨e, ?_, ?_⟩
          · simp [putAt, hkey, bind, Except.bind]
          · simp [Buffers.putAt, getItem, hkey, bind, Except.bind]
      | ok k =>
          have hlookup := lookup_bindings s k
          cases hk : s.names.lookup k with
          | none =>
              rw [hk] at hlookup
              refine .inl ⟨.keyError, ?_, ?_⟩
              · simp [putAt, hkey, hk, bind, Except.bind]
              · simp [Buffers.putAt, getItem, hkey, hlookup, bind, Except.bind]
          | some x =>
              rw [hk] at hlookup
              have hchild : Buffers.putAt b (.dict s.bindings) (key :: next :: rest) = (do
                  let child ← Buffers.putAt b (s.value x) (next :: rest)
                  (Value.dict s.bindings).withItem key child) := by
                rw [Buffers.putAt_cons (by simp), getItem, hkey]
                simp [hlookup, bind, Except.bind, pure, Except.pure]
              cases x with
              | own value =>
                  cases hput : Buffers.putAt b value (next :: rest) with
                  | ok value' => exact absurd hput (Buffers.putAt_leaf _ _ _ (h.leaf k value hk))
                  | error e =>
                      refine .inl ⟨e, ?_, ?_⟩
                      · rw [putAt_own hkey (by simp) hk, hput]
                        rfl
                      · rw [hchild, SharedDict.value, hput]
                        rfl
              | shared place =>
                  obtain ⟨_, c, hfound⟩ := h.found k place hk
                  have hnext : next :: rest ≠ [] := by simp
                  obtain ⟨hfail, hdone⟩ := Buffers.putAt_find hfound b hnext
                  cases hput : Buffers.putAt b c (next :: rest) with
                  | error e =>
                      refine .inl ⟨e, ?_, ?_⟩
                      · rw [putAt_shared hkey (by simp) hk, hfail e hput]
                        rfl
                      · rw [hchild, SharedDict.value, hfound, Option.getD_some, hput]
                        rfl
                  | ok c' =>
                      obtain ⟨source, hsource, _⟩ := hdone c' hput
                      refine .inr ⟨_, ?_, .object hkey (by simp) hk hfound hput hsource⟩
                      rw [putAt_shared hkey (by simp) hk, hsource]
                      rfl

/-- One buffer does to the dict what it would do to a dict that shares nothing. -/
theorem Puts.bindings {segments : List Value} (h : Sound s) (hputs : Puts b s segments s') :
    Buffers.putAt b (.dict s.bindings) segments = .ok (.dict s'.bindings) ∧ Sound s' := by
  cases hputs with
  | @name key k hkey =>
      refine ⟨?_, sound_own h k rfl⟩
      rw [Buffers.putAt, setItem, hkey]
      exact congrArg (fun kvs => Except.ok (Value.dict kvs))
        (Dict.set_map_snd s.value s.names k (.own (.bin b)))
  | @object key c c' source k place rest hkey hrest hk hfound hput hsource =>
      obtain ⟨hplace, _⟩ := h.found k place hk
      obtain ⟨source', hsource', hfound', hother⟩ := (Buffers.putAt_find hfound b hrest).2 c' hput
      obtain rfl : source = source' := Except.ok.inj (hsource.symm.trans hsource')
      have hshared : ∀ j place', s.names.lookup j = some (.shared place') → j ≠ k →
          source.find place' = s.source.find place' := by
        intro j place' hj hne
        obtain ⟨hplace', _⟩ := h.found j place' hj
        obtain ⟨first, more, rfl⟩ := List.exists_cons_of_ne_nil hplace'
        exact hother first more hplace fun hhead => hne (h.apart j k _ _ hj hk hhead.symm)
      refine ⟨?_, h.nodup, fun j place' hj => ?_, h.apart, h.leaf⟩
      · have hlookup : s.bindings.lookup k = some c := by
          rw [lookup_bindings, hk, Option.map_some, SharedDict.value, hfound]
          rfl
        have hvalue : SharedDict.value { s with source } (.shared place) = c' := by
          rw [SharedDict.value, hfound']
          rfl
        have hset := map_value_update (f := s.value) (g := SharedDict.value { s with source })
          h.nodup hk fun j y hj hne => by
            cases y with
            | own value => rfl
            | shared place' => rw [SharedDict.value, SharedDict.value, hshared j place' hj hne]
        rw [Buffers.putAt_cons hrest, getItem, hkey]
        simp only [bind, Except.bind, hlookup, hput, withItem, setItem, hkey, pure, Except.pure]
        rw [← hvalue]
        exact congrArg (fun kvs => Except.ok (Value.dict kvs)) hset
      · by_cases hne : j = k
        · subst hne
          obtain rfl : place = place' := by
            rw [hk] at hj
            cases hj
            rfl
          exact ⟨hplace, c', hfound'⟩
        · obtain ⟨hplace', c'', hc''⟩ := h.found j place' hj
          exact ⟨hplace', c'', (hshared j place' hj hne).trans hc''⟩

theorem putBuffers_bindings (h : Sound s) (bufferPaths : List Value) (buffers : List Binary) :
    (s.putBuffers bufferPaths buffers).1.elim
        (.ok (.dict (s.putBuffers bufferPaths buffers).2.bindings)) .error =
      Buffers.putBuffers (.dict s.bindings) bufferPaths buffers := by
  induction bufferPaths generalizing s buffers with
  | nil => cases buffers <;> rfl
  | cons path bufferPaths ih =>
      cases buffers with
      | nil => rfl
      | cons buffer buffers =>
          simp only [putBuffers, Buffers.putBuffers]
          cases hsegments : path.segments with
          | error e => rfl
          | ok segments =>
              simp only [bind, Except.bind]
              rcases putAt_cases h buffer segments with ⟨e, he, hpure⟩ | ⟨s', hs', hputs⟩
              · rw [he, hpure]
                rfl
              · obtain ⟨hpure, hsound⟩ := hputs.bindings h
                rw [hs', hpure]
                exact ih hsound buffers

/-! ### The fresh dict -/

/-- The names come from the pairs. -/
def Provided (pairs : List Value) (names : List (Key × Bound)) : Prop :=
  (Dict.keys names).Nodup ∧ ∀ k x, names.lookup k = some x → ∃ i pair key value,
    (i, pair) ∈ enumItems 0 pairs ∧ pair.iterate = .ok [key, value] ∧
      key.hashKey = .ok k ∧ x = boundItem i pair value

/-- The items of the source are found where `dict` has found them. -/
theorem value_boundItem {source pair key x : Value} {i : Key}
    (hpair : ∀ xs, pair = .list xs ∨ pair = .tuple xs → source.child i = some pair)
    (hiterate : pair.iterate = .ok [key, x]) (names : List (Key × Bound)) :
    SharedDict.value ⟨source, names⟩ (boundItem i pair x) = x := by
  cases pair with
  | list xs | tuple xs =>
      cases hiterate
      have hchild := hpair [key, x] (by simp)
      rw [boundItem, SharedDict.value, find_cons hchild]
      rfl
  | scalar s | bin b | dict kvs => rfl

/-- One turn of `dict`, where nothing is shared. -/
def setPair (kvs : Bindings) (pair : Value) : Except PyError Bindings := do
  match ← pair.iterate with
  | [key, x] => return Dict.set kvs (← key.hashKey) x
  | _ => .error (.valueError "dictionary update sequence element; 2 is required")

theorem bindPair_cases (i : Key) (pair : Value) :
    (∃ e, (∀ names, bindPair names (i, pair) = .error e) ∧ ∀ kvs, setPair kvs pair = .error e) ∨
    ∃ key x k, pair.iterate = .ok [key, x] ∧ key.hashKey = .ok k ∧
      (∀ names, bindPair names (i, pair) = .ok (Dict.set names k (boundItem i pair x))) ∧
      ∀ kvs, setPair kvs pair = .ok (Dict.set kvs k x) := by
  cases hiterate : pair.iterate with
  | error e => exact .inl ⟨e, fun _ => by simp [bindPair, hiterate, bind, Except.bind],
      fun _ => by simp [setPair, hiterate, bind, Except.bind]⟩
  | ok items =>
      match items, hiterate with
      | [key, x], hiterate =>
          cases hkey : key.hashKey with
          | error e =>
              exact .inl ⟨e, fun _ => by simp [bindPair, hiterate, hkey, bind, Except.bind],
                fun _ => by simp [setPair, hiterate, hkey, bind, Except.bind]⟩
          | ok k => exact .inr ⟨key, x, k, rfl, hkey,
              fun _ => by simp [bindPair, hiterate, hkey, bind, Except.bind, pure, Except.pure],
              fun _ => by simp [setPair, hiterate, hkey, bind, Except.bind, pure, Except.pure]⟩
      | [], hiterate | [_], hiterate | _ :: _ :: _ :: _, hiterate =>
          exact .inl ⟨.valueError "dictionary update sequence element; 2 is required",
            fun _ => by simp only [bindPair, hiterate, bind, Except.bind],
            fun _ => by simp only [setPair, hiterate, bind, Except.bind]⟩

theorem foldlM_bindPair {source : Value} {pairs : List Value}
    (hpairs : ∀ i pair, (i, pair) ∈ enumItems 0 pairs → ∀ xs, pair = .list xs ∨ pair = .tuple xs →
      source.child i = some pair) (n : Nat) (rest : List Value)
    (hrest : ∀ item ∈ enumItems n rest, item ∈ enumItems 0 pairs) {names : List (Key × Bound)}
    (hnames : Provided pairs names) :
    rest.foldlM setPair (names.map (Prod.map id (SharedDict.value ⟨source, []⟩))) =
        ((enumItems n rest).foldlM bindPair names).map
          (List.map (Prod.map id (SharedDict.value ⟨source, []⟩))) ∧
      ∀ names', (enumItems n rest).foldlM bindPair names = .ok names' →
        Provided pairs names' := by
  induction rest generalizing n names with
  | nil =>
      refine ⟨rfl, fun names' h => ?_⟩
      cases h
      exact hnames
  | cons pair rest ih =>
      simp only [enumItems, List.forall_mem_cons] at hrest
      obtain ⟨hpair, hrest⟩ := hrest
      rw [enumItems, List.foldlM_cons, List.foldlM_cons]
      rcases bindPair_cases (.int n) pair with
        ⟨e, hbind, hset⟩ | ⟨key, x, k, hiterate, hkey, hbind, hset⟩
      · rw [hbind, hset]
        exact ⟨rfl, fun _ h => by cases h⟩
      · have hvalue := value_boundItem (hpairs _ _ hpair) hiterate []
        have hnext : Provided pairs (Dict.set names k (boundItem (.int n) pair x)) := by
          refine ⟨Dict.nodup_keys_set hnames.1 _ _, fun j y hj => ?_⟩
          rw [Dict.lookup_set] at hj
          split_ifs at hj with hjk
          · cases hj
            exact ⟨.int n, pair, key, x, hpair, hiterate, hjk ▸ hkey, rfl⟩
          · exact hnames.2 j y hj
        rw [hbind, hset]
        simp only [bind, Except.bind]
        obtain ⟨hfold, hprovided⟩ := ih (n + 1) hrest hnext
        refine ⟨?_, hprovided⟩
        rw [← hfold, ← Dict.set_map_snd, hvalue]

theorem boundItem_shared_iff {i : Key} {pair x : Value} {place : Path} :
    boundItem i pair x = .shared place ↔
      (∃ xs, pair = .list xs ∨ pair = .tuple xs) ∧ place = [i, .int 1] := by
  cases pair <;> simp [boundItem, eq_comm]

theorem leaf_of_iterate {pair key x value : Value} {i : Key}
    (hiterate : pair.iterate = .ok [key, x]) (hown : boundItem i pair x = .own value) : value.isContainer = false := by
  have hmem : x ∈ [key, x] := by simp
  cases pair with
  | list xs | tuple xs => cases hown
  | dict kvs =>
      cases hown
      rw [← Except.ok.inj hiterate] at hmem
      obtain ⟨k, _, rfl⟩ := List.mem_map.mp hmem
      cases k <;> rfl
  | bin b =>
      cases hown
      rw [← Except.ok.inj hiterate] at hmem
      obtain ⟨byte, _, rfl⟩ := List.mem_map.mp hmem
      rfl
  | scalar s =>
      cases hown
      cases s with
      | str s =>
          rw [← Except.ok.inj hiterate] at hmem
          obtain ⟨c, _, rfl⟩ := List.mem_map.mp hmem
          rfl
      | _ => cases hiterate

theorem sound_of_provided {source : Value} {pairs : List Value} {names : List (Key × Bound)}
    (hpairs : ∀ i pair, (i, pair) ∈ enumItems 0 pairs → ∀ xs, pair = .list xs ∨ pair = .tuple xs →
      source.child i = some pair)
    (hnames : Provided pairs names) : Sound ⟨source, names⟩ := by
  refine ⟨hnames.1, fun k place hk => ?_, fun k k' place place' hk hk' hhead => ?_,
    fun k value hk => ?_⟩
  · obtain ⟨i, pair, key, x, hmem, hiterate, _, hbound⟩ := hnames.2 k _ hk
    obtain ⟨⟨xs, hxs⟩, rfl⟩ := boundItem_shared_iff.mp hbound.symm
    have hchild := hpairs i pair hmem xs hxs
    refine ⟨by simp, x, ?_⟩
    rw [find_cons hchild]
    rcases hxs with rfl | rfl <;> cases hiterate <;> rfl
  · obtain ⟨i, pair, key, x, hmem, hiterate, hkey, hbound⟩ := hnames.2 k _ hk
    obtain ⟨i', pair', key', x', hmem', hiterate', hkey', hbound'⟩ := hnames.2 k' _ hk'
    obtain ⟨_, rfl⟩ := boundItem_shared_iff.mp hbound.symm
    obtain ⟨_, rfl⟩ := boundItem_shared_iff.mp hbound'.symm
    obtain rfl : i = i' := by simpa using hhead
    have hlookup := (Dict.lookup_eq_some_iff (nodup_keys_enumItems 0 pairs)).mpr hmem
    have hlookup' := (Dict.lookup_eq_some_iff (nodup_keys_enumItems 0 pairs)).mpr hmem'
    obtain rfl : pair = pair' := Option.some.inj (hlookup.symm.trans hlookup')
    have hsame := hiterate.symm.trans hiterate'
    cases hsame
    exact Except.ok.inj (hkey.symm.trans hkey')
  · obtain ⟨i, pair, key, x, _, hiterate, _, hbound⟩ := hnames.2 k _ hk
    exact leaf_of_iterate hiterate hbound.symm

theorem make_pairs {source : Value}
    (hdict : source.dictOf = source.iterate >>= fun pairs => pairs.foldlM setPair [])
    (hmake : make source = source.iterate >>= fun pairs =>
      (enumItems 0 pairs).foldlM bindPair [] >>= fun names => pure ⟨source, names⟩)
    (hpairs : ∀ pairs, source.iterate = .ok pairs → ∀ i pair, (i, pair) ∈ enumItems 0 pairs →
      ∀ xs, pair = .list xs ∨ pair = .tuple xs → source.child i = some pair) :
    source.dictOf = (make source).map bindings ∧
      ∀ s, make source = .ok s → s.source = source ∧ Sound s := by
  rw [hdict, hmake]
  cases hiterate : source.iterate with
  | error e => exact ⟨rfl, fun _ h => by cases h⟩
  | ok pairs =>
      have hchildren := hpairs pairs hiterate
      have hnone : Provided pairs [] := ⟨by simp, fun k x h => by cases h⟩
      obtain ⟨hfold, hprovided⟩ := foldlM_bindPair hchildren 0 pairs (fun _ h => h) hnone
      have hnil : pairs.foldlM setPair [] = _ := hfold
      simp only [bind, Except.bind] at hnil ⊢
      rw [hnil]
      cases hnames : (enumItems 0 pairs).foldlM bindPair [] with
      | error e => exact ⟨rfl, fun _ h => by cases h⟩
      | ok names =>
          refine ⟨rfl, fun s hs => ?_⟩
          cases hs
          exact ⟨rfl, sound_of_provided hchildren (hprovided names hnames)⟩

/-- The fresh dict is the dict, and it is bound soundly. -/
theorem make_spec {source : Value} (hsource : source.Wf) :
    source.dictOf = (make source).map bindings ∧
      ∀ s, make source = .ok s → s.source = source ∧ Sound s := by
  cases source with
  | dict kvs =>
      have hnodup := (wf_dict_iff.mp hsource).1
      have hlookup : ∀ k x, (kvs.map fun kv => (kv.1, Bound.shared [kv.1])).lookup k = some x →
          x = .shared [k] ∧ ∃ c, kvs.lookup k = some c := by
        intro k x hk
        obtain ⟨kv, hkv, heq⟩ := List.mem_map.mp (Dict.mem_of_lookup hk)
        cases heq
        exact ⟨rfl, kv.2, (Dict.lookup_eq_some_iff hnodup).mpr hkv⟩
      refine ⟨?_, fun s hs => ?_⟩
      · have hbindings : bindings ⟨.dict kvs, kvs.map fun kv => (kv.1, .shared [kv.1])⟩ = kvs := by
          rw [bindings, List.map_map]
          refine (List.map_congr_left ?_).trans (List.map_id kvs)
          rintro ⟨k, x⟩ hkv
          have hx := (Dict.lookup_eq_some_iff hnodup).mpr hkv
          simp [SharedDict.value, find, hx]
        rw [dictOf, make, Except.map, hbindings]
      · cases hs
        refine ⟨rfl, ?_, fun k place hk => ?_, fun k k' place place' hk hk' hhead => ?_,
          fun k value hk => ?_⟩
        · simpa [Dict.keys, Function.comp_def] using hnodup
        · obtain ⟨hplace, c, hc⟩ := hlookup k _ hk
          cases hplace
          exact ⟨by simp, c, by simp [find, hc]⟩
        · obtain ⟨hplace, _⟩ := hlookup k _ hk
          obtain ⟨hplace', _⟩ := hlookup k' _ hk'
          cases hplace
          cases hplace'
          simpa using hhead
        · cases (hlookup k _ hk).1
  | list xs | tuple xs =>
      refine make_pairs rfl rfl fun pairs hpairs i pair hmem _ _ => ?_
      cases hpairs
      simpa only [child_tuple] using child_seq_iff.mpr hmem
  | bin b =>
      refine make_pairs rfl rfl fun pairs hpairs i pair hmem xs hxs => ?_
      cases hpairs
      obtain ⟨n, _, hn⟩ := mem_enumItems_iff.mp hmem
      obtain ⟨byte, _, rfl⟩ := List.mem_map.mp (List.mem_of_getElem? hn)
      rcases hxs with h | h <;> cases h
  | scalar s =>
      refine make_pairs rfl rfl fun pairs hpairs i pair hmem xs hxs => ?_
      cases s with
      | str s =>
          cases hpairs
          obtain ⟨n, _, hn⟩ := mem_enumItems_iff.mp hmem
          obtain ⟨c, _, rfl⟩ := List.mem_map.mp (List.mem_of_getElem? hn)
          rcases hxs with h | h <;> cases h
      | _ => cases hpairs

/-! ### What the source is left as -/

/-- The place in the source of a place in the dict. -/
def relocate (names : List (Key × Bound)) : Path → Path
  | [] => []
  | k :: rest =>
      match names.lookup k with
      | some (.shared place) => place ++ rest
      | _ => k :: rest

/-- A name is written in the dict alone, and anything below it in the source. -/
theorem Puts.place {segments : List Value} (h : Sound s) (hputs : Puts b s segments s') :
    ∃ t, Buffers.writer.place (.dict s.bindings) segments = some t ∧
      Buffers.Writes (.dict s.bindings) t b (.dict s'.bindings) ∧
      ((∃ k, t = [k]) ∧ s'.source = s.source ∨
        ∃ k rest place, t = k :: rest ∧ rest ≠ [] ∧ s.names.lookup k = some (.shared place) ∧
          Buffers.Writes s.source (place ++ rest) b s'.source ∧
          ∀ old, s.source.look (place ++ rest) = some (.bin old) →
            s'.source.emptied = s.source.emptied) := by
  have hput : Buffers.writer.putAt b (.dict s.bindings) segments = .ok (.dict s'.bindings) :=
    (hputs.bindings h).1
  obtain ⟨t, ht, hwrites, _⟩ := Writer.putAt_ok hput
  refine ⟨t, ht, hwrites, ?_⟩
  cases hputs with
  | @name key k hkey =>
      obtain ⟨k', _, rfl⟩ := Option.map_eq_some_iff.mp ht
      exact .inl ⟨⟨k', rfl⟩, rfl⟩
  | @object key c c' source k place rest hkey hrest hk hfound hput' hsource =>
      obtain ⟨k', d, path, hk', hd, hpath, rfl⟩ := (Writer.place_cons hrest).mp ht
      obtain rfl : k = k' := Option.some.inj ((keyOf_dict hkey).symm.trans hk')
      have hlookup : s.bindings.lookup k = some c := by
        rw [lookup_bindings, hk, Option.map_some, SharedDict.value, hfound]
        rfl
      obtain rfl : c = d := Option.some.inj (hlookup.symm.trans hd)
      have hwritten : Buffers.writer.putAt b s.source (place.map Key.toValue ++ rest) =
          .ok source := hsource
      obtain ⟨t', ht', hwrites', hrefill⟩ := Writer.putAt_ok hwritten
      obtain ⟨path', hpath', rfl⟩ := (Buffers.place_find hfound hrest).mp ht'
      obtain rfl : path = path' := Option.some.inj (hpath.symm.trans hpath')
      exact .inr ⟨k, path, place, rfl, Writer.place_ne_nil hpath, hk, hwrites', hrefill⟩

theorem Puts.names {segments : List Value} (hputs : Puts b s segments s') {k : Key} {place : Path}
    (hk : s'.names.lookup k = some (.shared place)) :
    s.names.lookup k = some (.shared place) := by
  cases hputs with
  | name hkey =>
      rw [Dict.lookup_set] at hk
      split_ifs at hk
      · cases hk
      · exact hk
  | object => exact hk

/-- The writes that go below a name. -/
def nested (writes : List (Path × Binary)) : List (Path × Binary) :=
  writes.filter fun x => 2 ≤ x.1.length

theorem putBuffers_overwrites (h : Sound s) {names : List (Key × Bound)}
    (hnames : ∀ k place, s.names.lookup k = some (.shared place) →
      names.lookup k = some (.shared place)) (bufferPaths : List Value) (buffers : List Binary) :
    Overwrites s.source
      ((nested (performed (Buffers.place (.dict s.bindings)) [] (bufferPaths.zip buffers))).map
        (Prod.map (relocate names) id))
      (s.putBuffers bufferPaths buffers).2.source := by
  induction bufferPaths generalizing s buffers with
  | nil => cases buffers <;> exact .nil _
  | cons path bufferPaths ih =>
      cases buffers with
      | nil => exact .nil _
      | cons buffer buffers =>
          rw [List.zip_cons_cons, putBuffers]
          cases hsegments : path.segments with
          | error e =>
              have hnone : Buffers.place (.dict s.bindings) path = none := by
                rw [Buffers.place, hsegments]
                rfl
              rw [performed_of_none hnone]
              exact .nil _
          | ok segments =>
              have hplace : Buffers.place (.dict s.bindings) path =
                  Buffers.writer.place (.dict s.bindings) segments := by
                rw [Buffers.place, hsegments]
                rfl
              simp only [bind, Except.bind]
              rcases putAt_cases h buffer segments with ⟨e, he, hpure⟩ | ⟨s', hs', hputs⟩
              · have hnone : Buffers.writer.place (.dict s.bindings) segments = none := by
                  cases ht : Buffers.writer.place (.dict s.bindings) segments with
                  | none => rfl
                  | some t =>
                      obtain ⟨w, hw⟩ := Writer.putAt_of_place ht buffer
                      cases hpure.symm.trans hw
                rw [he, performed_of_none (hplace.trans hnone)]
                exact .nil _
              · obtain ⟨t, ht, hwrites, hcases⟩ := hputs.place h
                have hafter : ∀ path t', Buffers.place (.dict s'.bindings) path = some t' ↔
                    ¬ GoesBelow t' t ∧ Buffers.place (.dict s.bindings) path = some t' := by
                  intro path t'
                  simp only [Buffers.place, Option.bind_eq_some_iff,
                    Writer.place_of_writes_iff hwrites]
                  exact ⟨fun ⟨a, ha, hbelow, ht⟩ => ⟨hbelow, a, ha, ht⟩,
                    fun ⟨hbelow, a, ha, ht⟩ => ⟨a, ha, hbelow, ht⟩⟩
                have hrest := ih (hputs.bindings h).2
                  (fun k place hk => hnames k place (hputs.names hk)) buffers
                rw [hs', performed_cons (hplace.trans ht) hafter]
                rcases hcases with
                  ⟨⟨k, rfl⟩, hsource⟩ | ⟨k, rest, place, rfl, hrest', hk, hwrites', hrefill⟩
                · rw [hsource] at hrest
                  exact hrest
                · have hlong : 2 ≤ (k :: rest).length := by
                    have hpos := List.length_pos_iff.mpr hrest'
                    simp only [List.length_cons]
                    omega
                  have hmoved : relocate names (k :: rest) = place ++ rest := by
                    rw [relocate, hnames k place hk]
                  rw [nested, List.filter_cons_of_pos (by simpa using hlong), List.map_cons,
                    Prod.map, hmoved]
                  exact .cons hwrites' hrefill hrest

/-- Below a name the dict is its source. -/
theorem relocate_place (h : Sound s) {path : Value} {t : Path}
    (hplace : Buffers.place (.dict s.bindings) path = some t) (hlong : 2 ≤ t.length) :
    ∃ k rest place segments, t = k :: rest ∧ s.names.lookup k = some (.shared place) ∧
      relocate s.names t = place ++ rest ∧
      Buffers.writer.place s.source segments = some (place ++ rest) ∧
      s.source.look (place ++ rest) = (Value.dict s.bindings).look t := by
  obtain ⟨segments, _, ht⟩ := Option.bind_eq_some_iff.mp hplace
  cases segments with
  | nil => cases ht
  | cons key more =>
      by_cases hmore : more = []
      · subst hmore
        obtain ⟨k, _, rfl⟩ := Option.map_eq_some_iff.mp ht
        simp at hlong
      · obtain ⟨k, c, rest, _, hc, hrest, rfl⟩ := (Writer.place_cons hmore).mp ht
        have hcontainer := Writer.isContainer_of_place hrest
        have hlookup := (lookup_bindings s k).symm.trans hc
        obtain ⟨x, hx, hvalue⟩ := Option.map_eq_some_iff.mp hlookup
        cases x with
        | own value =>
            have hleaf := h.leaf k value hx
            rw [← hvalue, SharedDict.value, hleaf] at hcontainer
            cases hcontainer
        | shared place =>
            obtain ⟨_, d, hfound⟩ := h.found k place hx
            rw [SharedDict.value, hfound, Option.getD_some] at hvalue
            subst hvalue
            refine ⟨k, rest, place, place.map Key.toValue ++ more, rfl, hx, ?_, ?_, ?_⟩
            · rw [relocate, hx]
            · exact (Buffers.place_find hfound hmore).mpr ⟨rest, hrest, rfl⟩
            · rw [look_find hfound, look_cons_of_child hc]

theorem relocate_injective (h : Sound s) {path path' : Value} {t t' : Path}
    (hplace : Buffers.place (.dict s.bindings) path = some t) (hlong : 2 ≤ t.length)
    (hplace' : Buffers.place (.dict s.bindings) path' = some t') (hlong' : 2 ≤ t'.length)
    (heq : relocate s.names t = relocate s.names t') : t = t' := by
  obtain ⟨k, rest, place, _, rfl, hk, hmoved, _⟩ := relocate_place h hplace hlong
  obtain ⟨k', rest', place', _, rfl, hk', hmoved', _⟩ := relocate_place h hplace' hlong'
  rw [hmoved, hmoved'] at heq
  obtain ⟨first, more, rfl⟩ := List.exists_cons_of_ne_nil (h.found k place hk).1
  obtain ⟨first', more', rfl⟩ := List.exists_cons_of_ne_nil (h.found k' place' hk').1
  obtain ⟨rfl, _⟩ := List.cons.inj heq
  obtain rfl : k = k' := h.apart k k' _ _ hk hk' rfl
  obtain hsame : first :: more = first :: more' := by
    rw [hk] at hk'
    cases hk'
    rfl
  rw [← hsame] at heq
  rw [List.append_cancel_left heq]

/-- The source is left as it was exactly when each buffer written below a name is there. -/
theorem putBuffers_source_iff (h : Sound s) (hsource : s.source.Wf) (bufferPaths : List Value)
    (buffers : List Binary) :
    (s.putBuffers bufferPaths buffers).2.source = s.source ↔
      Settled (.dict s.bindings)
        (nested (performed (Buffers.place (.dict s.bindings)) [] (bufferPaths.zip buffers))) := by
  have hmem : ∀ x ∈ nested (performed (Buffers.place (.dict s.bindings)) []
      (bufferPaths.zip buffers)), (∃ path, Buffers.place (.dict s.bindings) path = some x.1) ∧
        2 ≤ x.1.length := by
    intro x hx
    obtain ⟨hx, hlong⟩ := List.mem_filter.mp hx
    exact ⟨place_of_performed hx, of_decide_eq_true hlong⟩
  rw [(putBuffers_overwrites h (fun _ _ hk => hk) bufferPaths buffers).unchanged_iff hsource]
  · apply settled_map
    · intro x hx y hy
      obtain ⟨⟨path, hpath⟩, hlong⟩ := hmem x hx
      obtain ⟨⟨path', hpath'⟩, hlong'⟩ := hmem y hy
      exact relocate_injective h hpath hlong hpath' hlong'
    · intro x hx
      obtain ⟨⟨path, hpath⟩, hlong⟩ := hmem x hx
      obtain ⟨k, rest, place, _, _, _, hmoved, _, hlook⟩ := relocate_place h hpath hlong
      rw [hmoved, hlook]
  · intro y hy front key rest heq
    obtain ⟨x, hx, rfl⟩ := List.mem_map.mp hy
    obtain ⟨⟨path, hpath⟩, hlong⟩ := hmem x hx
    obtain ⟨k, more, place, segments, _, _, hmoved, hplace, _⟩ := relocate_place h hpath hlong
    exact Writer.container_above hplace (hmoved.symm.trans heq)

end SharedDict

/-! ### What the arguments are left as -/

/-- Every buffer of an update that is written below a name of its state, the last for each
place, is there already. -/
def LeavesMessage (message : Value) (buffers : List Binary) : Prop :=
  ∀ state bufferPaths, Protocol.parseMessage message = .update state bufferPaths →
    ∀ fields paths, state.dictOf = .ok fields → bufferPaths.iterate = .ok paths →
      Settled (.dict fields) (SharedDict.nested
        (performed (Buffers.place (.dict fields)) [] (paths.zip buffers)))

/-- So it is for an update on an open comm; other events change nothing. -/
def LeavesArguments (phase : Phase) : Event → Prop
  | .inbound message buffers => phase = .opened → LeavesMessage message buffers
  | _ => True

section Results

variable {message : Value} (buffers : List Binary) (currentState : Bindings)
  (capabilities : TransportCapabilities)

theorem reduceInboundInPlace_update {state bufferPaths : Value}
    (hmessage : Protocol.parseMessage message = .update state bufferPaths) :
    reduceInboundInPlace .opened message buffers currentState capabilities =
      match SharedDict.make state, bufferPaths.iterate with
      | .error e, _ => (.error e, message)
      | .ok _, .error e => (.error e, message)
      | .ok s, .ok paths =>
          ((s.putBuffers paths buffers).1.elim
              (.ok (.opened, [.applyState (s.putBuffers paths buffers).2.bindings])) .error,
            withState message (s.putBuffers paths buffers).2.source) := by
  unfold reduceInboundInPlace
  rw [hmessage]

theorem reduceInboundInPlace_other {phase : Phase}
    (h : ∀ state bufferPaths, phase = .opened →
      Protocol.parseMessage message ≠ .update state bufferPaths) :
    reduceInboundInPlace phase message buffers currentState capabilities =
      (reduceInbound phase message buffers currentState capabilities, message) := by
  unfold reduceInboundInPlace
  cases phase with
  | opened =>
      cases hmessage : Protocol.parseMessage message with
      | update state bufferPaths => exact absurd hmessage (h state bufferPaths rfl)
      | requestState | custom content | ignored method => rfl
  | unopened | closed => rfl

/-- The state of an update is part of the message, or it is fresh. -/
theorem parse_update {state bufferPaths : Value}
    (hmessage : Protocol.parseMessage message = .update state bufferPaths) :
    ∃ data, message = .dict data ∧ (data.lookup (.str "state") = some state ∨
      data.lookup (.str "state") = none ∧ state = .dict []) := by
  rcases Shell.parse_cases message with
    ⟨data, rfl, _, h⟩ | ⟨data, _, _, h⟩ | ⟨data, _, _, h⟩ | ⟨_, method, h⟩
  · cases hmessage.symm.trans h
    refine ⟨data, rfl, ?_⟩
    cases hlookup : data.lookup (.str "state") with
    | none => exact .inr ⟨rfl, by simp [Protocol.get, hlookup]⟩
    | some state => exact .inl (by simp [Protocol.get, hlookup])
  · cases hmessage.symm.trans h
  · cases hmessage.symm.trans h
  · cases hmessage.symm.trans h

theorem wf_state (hwf : message.Wf) {state bufferPaths : Value}
    (hmessage : Protocol.parseMessage message = .update state bufferPaths) : state.Wf := by
  obtain ⟨data, rfl, hlookup | ⟨_, rfl⟩⟩ := parse_update hmessage
  · exact hwf.child (Dict.mem_of_lookup hlookup)
  · decide

/-- What is answered is what the reducer answers that shares nothing. -/
theorem reduceInboundInPlace_fst (hwf : message.Wf) (phase : Phase) :
    (reduceInboundInPlace phase message buffers currentState capabilities).1 =
      reduceInbound phase message buffers currentState capabilities := by
  by_cases hupdate : ∃ state bufferPaths, phase = .opened ∧
      Protocol.parseMessage message = .update state bufferPaths
  · obtain ⟨state, bufferPaths, rfl, hmessage⟩ := hupdate
    obtain ⟨hdict, hsound⟩ := SharedDict.make_spec (wf_state hwf hmessage)
    rw [reduceInboundInPlace_update buffers currentState capabilities hmessage,
      reduceInbound_update hmessage, mergeUpdate, hdict]
    cases hmake : SharedDict.make state with
    | error e => rfl
    | ok s =>
        cases bufferPaths.iterate with
        | error e => rfl
        | ok paths =>
            have hput := SharedDict.putBuffers_bindings (hsound s hmake).2 paths buffers
            simp only [Except.map, bind, Except.bind, ← hput]
            cases (s.putBuffers paths buffers).1 <;> rfl
  · rw [reduceInboundInPlace_other]
    exact fun state bufferPaths hphase hmessage =>
      hupdate ⟨state, bufferPaths, hphase, hmessage⟩

theorem reduceInboundInPlace_snd_iff (hwf : message.Wf) :
    (reduceInboundInPlace .opened message buffers currentState capabilities).2 = message ↔
      LeavesMessage message buffers := by
  by_cases hupdate : ∃ state bufferPaths, Protocol.parseMessage message = .update state bufferPaths
  · obtain ⟨state, bufferPaths, hmessage⟩ := hupdate
    have hleaves : LeavesMessage message buffers ↔
        ∀ fields paths, state.dictOf = .ok fields → bufferPaths.iterate = .ok paths →
          Settled (.dict fields) (SharedDict.nested
            (performed (Buffers.place (.dict fields)) [] (paths.zip buffers))) := by
      refine ⟨fun h => h state bufferPaths hmessage, fun h state' bufferPaths' hmessage' => ?_⟩
      cases hmessage.symm.trans hmessage'
      exact h
    have hstate := wf_state hwf hmessage
    obtain ⟨hdict, hsound⟩ := SharedDict.make_spec hstate
    rw [hleaves, hdict, reduceInboundInPlace_update buffers currentState capabilities hmessage]
    cases hmake : SharedDict.make state with
    | error e => exact iff_of_true rfl (fun _ _ h => by cases h)
    | ok s =>
        cases bufferPaths.iterate with
        | error e => exact iff_of_true rfl (fun _ _ _ h => by cases h)
        | ok paths =>
            obtain ⟨rfl, hs⟩ := hsound s hmake
            have hsource := SharedDict.putBuffers_source_iff hs hstate paths buffers
            have hall : (∀ fields paths', (.ok s : Except PyError SharedDict).map
                  SharedDict.bindings = .ok fields →
                (.ok paths : Except PyError (List Value)) = .ok paths' →
                Settled (.dict fields) (SharedDict.nested
                  (performed (Buffers.place (.dict fields)) [] (paths'.zip buffers)))) ↔
                Settled (.dict s.bindings) (SharedDict.nested
                  (performed (Buffers.place (.dict s.bindings)) [] (paths.zip buffers))) := by
              refine ⟨fun h => h _ _ rfl rfl, ?_⟩
              rintro h _ _ ⟨⟩ ⟨⟩
              exact h
            rw [hall, ← hsource]
            obtain ⟨data, rfl, hlookup | ⟨hlookup, hfresh⟩⟩ := parse_update hmessage
            · have hsome : (data.lookup (.str "state")).isSome := by
                rw [hlookup]
                rfl
              have hmem := Dict.lookup_isSome_iff.mp hsome
              simp only [withState, if_pos hmem, Value.dict.injEq]
              exact Dict.set_eq_self_iff hlookup
            · have hmem := Dict.lookup_eq_none_iff.mp hlookup
              simp only [withState, if_neg hmem, true_iff]
              -- nothing lies below a name of the fresh state
              apply hsource.mpr
              intro front t b back heq _
              have hwritten : (t, b) ∈ SharedDict.nested (performed
                  (Buffers.place (.dict s.bindings)) [] (paths.zip buffers)) := by
                rw [heq]
                simp
              obtain ⟨hwritten, hlong⟩ := List.mem_filter.mp hwritten
              obtain ⟨path, hpath⟩ := place_of_performed hwritten
              obtain ⟨k, _, place, _, _, hk, _⟩ :=
                SharedDict.relocate_place hs hpath (of_decide_eq_true hlong)
              rw [hfresh] at hmake
              have hnames : [] = s.names := congrArg SharedDict.names (Except.ok.inj hmake)
              rw [← hnames] at hk
              cases hk
  · rw [reduceInboundInPlace_other]
    · refine iff_of_true rfl fun state bufferPaths hmessage => ?_
      exact absurd ⟨state, bufferPaths, hmessage⟩ hupdate
    · exact fun state bufferPaths _ hmessage => hupdate ⟨state, bufferPaths, hmessage⟩

end Results

/-- What `reduce` answers is what it answers when it shares nothing. -/
theorem reduceInPlace_fst (phase : Phase) {event : Event} (hevent : event.Wf)
    (currentState : Bindings) (capabilities : TransportCapabilities) :
    (reduceInPlace phase event currentState capabilities).1 =
      reduce phase event currentState capabilities := by
  cases event with
  | inbound message buffers =>
      exact reduceInboundInPlace_fst buffers currentState capabilities hevent phase
  | openComm | sendState include? | sendCustom content buffers | closeComm | commIdAssigned id =>
      rfl

/-- `reduce` leaves its event and the host state as they were exactly when, of an update on an
open comm, it writes nothing below a name of the state that is not there already. -/
theorem reduce_pure_iff (phase : Phase) {event : Event} (hevent : event.Wf)
    (currentState : Bindings) (capabilities : TransportCapabilities) :
    (reduceInPlace phase event currentState capabilities).2 = (event, currentState) ↔
      LeavesArguments phase event := by
  cases event with
  | inbound message buffers =>
      have hsame : (reduceInPlace phase (.inbound message buffers) currentState capabilities).2 =
            (.inbound message buffers, currentState) ↔
          (reduceInboundInPlace phase message buffers currentState capabilities).2 = message := by
        simp [reduceInPlace]
      rw [hsame, LeavesArguments]
      by_cases hphase : phase = .opened
      · subst hphase
        rw [reduceInboundInPlace_snd_iff buffers currentState capabilities hevent]
        exact ⟨fun h _ => h, fun h => h rfl⟩
      · rw [reduceInboundInPlace_other]
        · exact iff_of_true rfl fun hopened => absurd hopened hphase
        · exact fun _ _ hopened => absurd hopened hphase
  | openComm | sendState include? | sendCustom content buffers | closeComm | commIdAssigned id =>
      exact iff_of_true rfl trivial

namespace UpdateWitness

/-- An update with a buffer below the key `image`. -/
def update : Event :=
  .inbound (.dict [(.str "method", .str "update"), (.str "state", .dict [(.str "image", .dict [])]),
    (.str "buffer_paths", .list [.list [.str "image", .str "png"]])]) [⟨.bytes, [65]⟩]

theorem wf_update : update.Wf := by
  rw [update, Event.Wf]
  decide

/-- What is found at the end of the path. -/
def png : Event → Option Label
  | .inbound message _ => message.look [.str "state", .str "image", .str "png"]
  | _ => none

theorem reduce_pure_iff_update :
    (reduceInPlace .opened update [] {}).2 = (update, []) ↔ LeavesArguments .opened update :=
  reduce_pure_iff .opened wf_update [] {}

end UpdateWitness

/-- The bytes end up in the message that was delivered. -/
theorem reduce_changes_message :
    ¬ ∀ phase (event : Event) currentState capabilities, event.Wf →
      (reduceInPlace phase event currentState capabilities).2 = (event, currentState) := by
  intro h
  have hupdate := h .opened UpdateWitness.update [] {} UpdateWitness.wf_update
  have hpng := congrArg (fun after => UpdateWitness.png after.1) hupdate
  exact absurd hpng (by decide)

end Lifecycle

end Cositos
