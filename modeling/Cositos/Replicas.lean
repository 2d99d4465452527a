/-
Two replicas of a keyed store that exchange partial updates over two queues.
An update carries values for some keys and is taken in as it arrives; nothing
orders an update against those that cross it.  Keys and values are arbitrary.
-/
import Mathlib.Data.Set.Insert

namespace Cositos

/-- The two parties. -/
inductive Side
  | left
  | right
deriving DecidableEq, Repr

namespace Side

def other : Side → Side
  | left => right
  | right => left

@[simp] theorem other_other (side : Side) : side.other.other = side := by
  cases side <;> rfl

@[simp] theorem other_ne (side : Side) : side.other ≠ side := by
  cases side <;> simp [other]

@[simp] theorem ne_other (side : Side) : side ≠ side.other := (other_ne side).symm

theorem eq_other_of_ne {side side' : Side} (h : side' ≠ side) : side' = side.other := by
  cases side <;> cases side' <;> simp_all [other]

end Side

universe u v

/-- The copies of the two sides, the keys each side has changed without sending
them since, and the updates on their way to each side, oldest first. -/
@[ext] structure Replicas (K : Type u) (V : Type v) where
  copy : Side → K → Option V
  unsent : Side → Set K
  inbox : Side → List (K → Option V)

namespace Replicas

variable {K : Type u} {V : Type v} [DecidableEq K]

/-- What can happen.  A side may send any update; `marks` says that the keys it
carries count as sent. -/
inductive Move (K : Type u) (V : Type v)
  | edit (side : Side) (key : K) (value : V)
  | send (side : Side) (update : K → Option V) (marks : Bool)
  | deliver (side : Side)

/-- The replicas after a move. -/
def apply (r : Replicas K V) : Move K V → Replicas K V
  | .edit side key value =>
      { r with
        copy := Function.update r.copy side (Function.update (r.copy side) key (some value))
        unsent := Function.update r.unsent side (insert key (r.unsent side)) }
  | .send side update marks =>
      { r with
        unsent := Function.update r.unsent side
          (if marks then {key ∈ r.unsent side | update key = none} else r.unsent side)
        inbox := Function.update r.inbox side.other (r.inbox side.other ++ [update]) }
  | .deliver side =>
      match r.inbox side with
      | [] => r
      | update :: rest =>
          { r with
            copy := Function.update r.copy side fun key => (update key).or (r.copy side key)
            inbox := Function.update r.inbox side rest }

/-- Moves that are each allowed where they are made. -/
def Along (allowed : Replicas K V → Move K V → Prop) : Replicas K V → List (Move K V) → Prop
  | _, [] => True
  | r, move :: moves => allowed r move ∧ Along allowed (r.apply move) moves

/-- What an allowed move keeps allowed moves keep. -/
theorem along_invariant {allowed : Replicas K V → Move K V → Prop} {I : Replicas K V → Prop}
    (hstep : ∀ r move, I r → allowed r move → I (r.apply move)) {r : Replicas K V}
    {moves : List (Move K V)} (hmoves : Along allowed r moves) (h : I r) :
    I (moves.foldl apply r) := by
  induction moves generalizing r with
  | nil => exact h
  | cons move moves ih => exact ih hmoves.2 (hstep r move h hmoves.1)

section Arrived

variable {K : Type u} {V : Type v}

/-- The value of a key once the updates have arrived. -/
def arrived (updates : List (K → Option V)) (key : K) (value : Option V) : Option V :=
  updates.foldl (fun value update => (update key).or value) value

theorem arrived_append (updates : List (K → Option V)) (update : K → Option V) (key : K)
    (value : Option V) :
    arrived (updates ++ [update]) key value = (update key).or (arrived updates key value) := by
  simp [arrived]

theorem arrived_eq_self {updates : List (K → Option V)} {key : K}
    (h : ∀ update ∈ updates, update key = none) (value : Option V) :
    arrived updates key value = value := by
  induction updates generalizing value with
  | nil => rfl
  | cons head tail ih =>
      rw [arrived, List.foldl_cons, h head List.mem_cons_self, Option.none_or]
      exact ih (fun update hupdate => h update (List.mem_cons_of_mem _ hupdate)) value

end Arrived

/-! ### What a move changes -/

omit [DecidableEq K] in
theorem ext_points {r r' : Replicas K V} (hcopy : ∀ side key, r.copy side key = r'.copy side key)
    (hunsent : ∀ side key, key ∈ r.unsent side ↔ key ∈ r'.unsent side)
    (hinbox : ∀ side, r.inbox side = r'.inbox side) : r = r' :=
  Replicas.ext (funext fun side => funext (hcopy side))
    (funext fun side => Set.ext (hunsent side)) (funext hinbox)

section Apply

variable {r : Replicas K V} {side side' : Side} {key key' : K}

theorem copy_edit (value : V) :
    (r.apply (.edit side' key' value)).copy side key =
      if side = side' ∧ key = key' then some value else r.copy side key := by
  by_cases hside : side = side'
  · subst hside
    by_cases hkey : key = key'
    · subst hkey
      simp [apply]
    · simp [apply, hkey]
  · simp [apply, hside]

theorem mem_unsent_edit (value : V) :
    key ∈ (r.apply (.edit side' key' value)).unsent side ↔
      (side = side' ∧ key = key') ∨ key ∈ r.unsent side := by
  by_cases hside : side = side'
  · subst hside
    simp [apply]
  · simp [apply, hside]

theorem mem_unsent_send (update : K → Option V) (marks : Bool) :
    key ∈ (r.apply (.send side' update marks)).unsent side ↔
      key ∈ r.unsent side ∧ ¬ (side = side' ∧ marks = true ∧ update key ≠ none) := by
  by_cases hside : side = side'
  · subst hside
    cases marks <;> simp [apply]
  · simp [apply, hside]

theorem inbox_send (update : K → Option V) (marks : Bool) :
    (r.apply (.send side' update marks)).inbox side =
      if side = side'.other then r.inbox side ++ [update] else r.inbox side := by
  by_cases hside : side = side'.other
  · subst hside
    simp [apply]
  · simp [apply, hside]

theorem apply_deliver_nil (h : r.inbox side = []) : r.apply (.deliver side) = r := by
  simp [apply, h]

theorem copy_deliver {update : K → Option V} {rest : List (K → Option V)}
    (h : r.inbox side' = update :: rest) :
    (r.apply (.deliver side')).copy side key =
      if side = side' then (update key).or (r.copy side key) else r.copy side key := by
  by_cases hside : side = side'
  · subst hside
    simp [apply, h]
  · simp [apply, h, hside]

theorem mem_unsent_deliver :
    key ∈ (r.apply (.deliver side')).unsent side ↔ key ∈ r.unsent side := by
  cases h : r.inbox side' <;> simp [apply, h]

theorem inbox_deliver {update : K → Option V} {rest : List (K → Option V)}
    (h : r.inbox side' = update :: rest) :
    (r.apply (.deliver side')).inbox side = if side = side' then rest else r.inbox side := by
  by_cases hside : side = side'
  · subst hside
    simp [apply, h]
  · simp [apply, h, hside]

/-- A key once bound stays bound. -/
theorem copy_ne_none_apply (h : r.copy side key ≠ none) (move : Move K V) :
    (r.apply move).copy side key ≠ none := by
  cases move with
  | edit side' key' value =>
      rw [copy_edit]
      split_ifs
      · simp
      · exact h
  | send side' update marks => exact h
  | deliver side' =>
      cases hinbox : r.inbox side' with
      | nil => rwa [apply_deliver_nil hinbox]
      | cons update rest =>
          rw [copy_deliver hinbox]
          split_ifs
          · simp [Option.or_eq_none_iff, h]
          · exact h

theorem copy_ne_none_foldl (h : r.copy side key ≠ none) (moves : List (Move K V)) :
    (moves.foldl apply r).copy side key ≠ none := by
  induction moves generalizing r with
  | nil => exact h
  | cons move moves ih => exact ih (copy_ne_none_apply h move)

end Apply

/-! ### One key and its owner -/

section Owner

variable {side : Side} {key : K} {r : Replicas K V}

omit [DecidableEq K]

/-- No value of the key is on its way to the side. -/
def Quiet (side : Side) (key : K) (r : Replicas K V) : Prop :=
  ∀ update ∈ r.inbox side, update key = none

/-- The owner has no value of the key left to send, and none is on its way. -/
def Settled (side : Side) (key : K) (r : Replicas K V) : Prop :=
  key ∉ r.unsent side ∧ Quiet side.other key r

/-- The other side will have the owner's value once its queue has drained, and
whatever comes back to the owner is the value it has. -/
structure Coherent (side : Side) (key : K) (r : Replicas K V) : Prop where
  current : key ∉ r.unsent side →
    arrived (r.inbox side.other) key (r.copy side.other key) = r.copy side key
  echoes : ∀ update ∈ r.inbox side, update key ≠ none →
    Settled side key r ∧ update key = r.copy side key

/-- A move that leaves the key to its owner.  Only the owner edits it, and both
sides send the value they have; the owner does either only while no value comes
back, the other side sends it back only when it is settled. -/
def Respects (side : Side) (key : K) (r : Replicas K V) : Move K V → Prop
  | .edit side' key' _ => key' = key → side' = side ∧ Quiet side key r
  | .send side' update _ => update key ≠ none → update key = r.copy side' key ∧
      if side' = side then Quiet side key r else Settled side key r
  | .deliver _ => True

theorem Coherent.quiet (h : Coherent side key r) (hnot : ¬ Settled side key r) :
    Quiet side key r := by
  intro update hupdate
  by_contra hcarries
  exact hnot (h.echoes update hupdate hcarries).1

theorem Coherent.copy_eq (h : Coherent side key r) (hsettled : Settled side key r) :
    r.copy side.other key = r.copy side key := by
  have hcurrent := h.current hsettled.1
  rwa [arrived_eq_self hsettled.2] at hcurrent

/-- With nothing left to send or to arrive, both sides have the same value. -/
theorem Coherent.copy_eq_of_empty (h : Coherent side key r) (hsent : key ∉ r.unsent side)
    (hempty : r.inbox side.other = []) : r.copy side.other key = r.copy side key :=
  h.copy_eq ⟨hsent, by simp [Quiet, hempty]⟩

variable [DecidableEq K]

/-- A delivery to the owner leaves its value of the key alone. -/
theorem Coherent.copy_deliver_owner (h : Coherent side key r) :
    (r.apply (.deliver side)).copy side key = r.copy side key := by
  cases hinbox : r.inbox side with
  | nil => rw [apply_deliver_nil hinbox]
  | cons update rest =>
      rw [copy_deliver hinbox, if_pos rfl]
      cases hupdate : update key with
      | none => rw [Option.none_or]
      | some value =>
          obtain ⟨-, heq⟩ := h.echoes update (by simp [hinbox]) (by simp [hupdate])
          rw [← heq, hupdate, Option.some_or]

theorem coherent_edit {side' : Side} {key' : K} {value : V} (h : Coherent side key r)
    (hmove : Respects side key r (.edit side' key' value)) :
    Coherent side key (r.apply (.edit side' key' value)) := by
  by_cases hkey : key' = key
  · subst hkey
    obtain ⟨rfl, hquiet⟩ := hmove rfl
    refine ⟨fun hsent => ?_, fun update hupdate hcarries => ?_⟩
    · exact absurd ((mem_unsent_edit value).mpr (Or.inl ⟨rfl, rfl⟩)) hsent
    · exact absurd (hquiet update hupdate) hcarries
  · have hcopy : ∀ s, (r.apply (.edit side' key' value)).copy s key = r.copy s key := by
      intro s
      rw [copy_edit, if_neg fun heq => hkey heq.2.symm]
    have hunsent : key ∉ (r.apply (.edit side' key' value)).unsent side ↔
        key ∉ r.unsent side := by
      rw [mem_unsent_edit]
      simp [Ne.symm hkey]
    refine ⟨fun hsent => ?_, fun update hupdate hcarries => ?_⟩
    · rw [hcopy, hcopy]
      exact h.current (hunsent.mp hsent)
    · obtain ⟨hsettled, heq⟩ := h.echoes update hupdate hcarries
      exact ⟨⟨hunsent.mpr hsettled.1, hsettled.2⟩, heq.trans (hcopy side).symm⟩

theorem coherent_send_owner {update : K → Option V} {marks : Bool} (h : Coherent side key r)
    (hmove : Respects side key r (.send side update marks)) :
    Coherent side key (r.apply (.send side update marks)) := by
  have hout : (r.apply (.send side update marks)).inbox side.other =
      r.inbox side.other ++ [update] := by
    rw [inbox_send, if_pos rfl]
  have hin : (r.apply (.send side update marks)).inbox side = r.inbox side := by
    rw [inbox_send, if_neg (Side.ne_other side)]
  refine ⟨fun hsent => ?_, fun echo hecho hcarries => ?_⟩
  · rw [hout, arrived_append]
    cases hupdate : update key with
    | none =>
        have hbefore : key ∉ r.unsent side := fun hmem =>
          hsent ((mem_unsent_send update marks).mpr ⟨hmem, by simp [hupdate]⟩)
        exact h.current hbefore
    | some value =>
        obtain ⟨heq, -⟩ := hmove (by simp [hupdate])
        rw [Option.some_or, ← hupdate]
        exact heq
  · rw [hin] at hecho
    obtain ⟨hsettled, heq⟩ := h.echoes echo hecho hcarries
    have hnone : update key = none := by
      by_contra hupdate
      obtain ⟨-, hquiet⟩ := hmove hupdate
      rw [if_pos rfl] at hquiet
      exact hcarries (hquiet echo hecho)
    refine ⟨⟨fun hmem => hsettled.1 ((mem_unsent_send update marks).mp hmem).1, ?_⟩, heq⟩
    intro sent hmem
    rw [hout, List.mem_append, List.mem_singleton] at hmem
    rcases hmem with hold | rfl
    · exact hsettled.2 sent hold
    · exact hnone

theorem coherent_send_other {update : K → Option V} {marks : Bool} (h : Coherent side key r)
    (hmove : Respects side key r (.send side.other update marks)) :
    Coherent side key (r.apply (.send side.other update marks)) := by
  have hin : (r.apply (.send side.other update marks)).inbox side = r.inbox side ++ [update] := by
    rw [inbox_send, if_pos (Side.other_other side).symm]
  have hout : (r.apply (.send side.other update marks)).inbox side.other =
      r.inbox side.other := by
    rw [inbox_send, if_neg (by simp)]
  have hunsent : key ∈ (r.apply (.send side.other update marks)).unsent side ↔
      key ∈ r.unsent side := by
    rw [mem_unsent_send]
    simp
  refine ⟨fun hsent => ?_, fun echo hecho hcarries => ?_⟩
  · rw [hout]
    exact h.current fun hmem => hsent (hunsent.mpr hmem)
  · rw [hin, List.mem_append, List.mem_singleton] at hecho
    have hback : Settled side key r ∧ echo key = r.copy side key := by
      rcases hecho with hold | rfl
      · exact h.echoes echo hold hcarries
      · obtain ⟨heq, hsettled⟩ := hmove hcarries
        rw [if_neg (Side.other_ne side)] at hsettled
        exact ⟨hsettled, heq.trans (h.copy_eq hsettled)⟩
    obtain ⟨hsettled, heq⟩ := hback
    refine ⟨⟨fun hmem => hsettled.1 (hunsent.mp hmem), ?_⟩, heq⟩
    intro sent hmem
    exact hsettled.2 sent (hout ▸ hmem)

theorem coherent_deliver_owner (h : Coherent side key r) :
    Coherent side key (r.apply (.deliver side)) := by
  have hcopy := h.copy_deliver_owner
  cases hinbox : r.inbox side with
  | nil => rwa [apply_deliver_nil hinbox]
  | cons update rest =>
      have hother : (r.apply (.deliver side)).copy side.other key = r.copy side.other key := by
        rw [copy_deliver hinbox, if_neg (Side.other_ne side)]
      have hout : (r.apply (.deliver side)).inbox side.other = r.inbox side.other := by
        rw [inbox_deliver hinbox, if_neg (Side.other_ne side)]
      refine ⟨fun hsent => ?_, fun echo hecho hcarries => ?_⟩
      · rw [hout, hother, hcopy]
        exact h.current fun hmem => hsent (mem_unsent_deliver.mpr hmem)
      · rw [inbox_deliver hinbox, if_pos rfl] at hecho
        obtain ⟨hsettled, heq⟩ := h.echoes echo (by simp [hinbox, hecho]) hcarries
        refine ⟨⟨fun hmem => hsettled.1 (mem_unsent_deliver.mp hmem), ?_⟩, heq.trans hcopy.symm⟩
        intro sent hmem
        exact hsettled.2 sent (hout ▸ hmem)

theorem coherent_deliver_other (h : Coherent side key r) :
    Coherent side key (r.apply (.deliver side.other)) := by
  cases hinbox : r.inbox side.other with
  | nil => rwa [apply_deliver_nil hinbox]
  | cons update rest =>
      have hcopy : (r.apply (.deliver side.other)).copy side key = r.copy side key := by
        rw [copy_deliver hinbox, if_neg (Side.ne_other side)]
      have hin : (r.apply (.deliver side.other)).inbox side = r.inbox side := by
        rw [inbox_deliver hinbox, if_neg (Side.ne_other side)]
      refine ⟨fun hsent => ?_, fun echo hecho hcarries => ?_⟩
      · have hcurrent := h.current fun hmem => hsent (mem_unsent_deliver.mpr hmem)
        rw [hinbox, arrived, List.foldl_cons] at hcurrent
        rw [inbox_deliver hinbox, if_pos rfl, copy_deliver hinbox, if_pos rfl, hcopy]
        exact hcurrent
      · obtain ⟨hsettled, heq⟩ := h.echoes echo (hin ▸ hecho) hcarries
        refine ⟨⟨fun hmem => hsettled.1 (mem_unsent_deliver.mp hmem), ?_⟩, heq.trans hcopy.symm⟩
        intro sent hmem
        rw [inbox_deliver hinbox, if_pos rfl] at hmem
        exact hsettled.2 sent (by simp [hinbox, hmem])

/-- Moves that leave the key to its owner keep it coherent. -/
theorem coherent_apply (h : Coherent side key r) {move : Move K V}
    (hmove : Respects side key r move) : Coherent side key (r.apply move) := by
  cases move with
  | edit side' key' value => exact coherent_edit h hmove
  | send side' update marks =>
      by_cases hside : side' = side
      · subst hside
        exact coherent_send_owner h hmove
      · obtain rfl := Side.eq_other_of_ne hside
        exact coherent_send_other h hmove
  | deliver side' =>
      by_cases hside : side' = side
      · subst hside
        exact coherent_deliver_owner h
      · obtain rfl := Side.eq_other_of_ne hside
        exact coherent_deliver_other h

theorem coherent_foldl (h : Coherent side key r) {moves : List (Move K V)}
    (hmoves : Along (Respects side key) r moves) : Coherent side key (moves.foldl apply r) :=
  along_invariant (I := Coherent side key) (fun _ _ h hmove => coherent_apply h hmove) hmoves h

/-- An edit that crosses the other side's old value: the two sides swap. -/
theorem crossing_swaps (side : Side) {value : V} {update answer : K → Option V}
    (hempty : ∀ side, r.inbox side = []) (hupdate : update key = some value)
    (hanswer : answer key = r.copy side.other key) (hheld : r.copy side.other key ≠ none) :
    let r' := [.edit side key value, .send side update true, .send side.other answer true,
      .deliver side, .deliver side.other].foldl apply r
    r'.copy side key = r.copy side.other key ∧ r'.copy side.other key = some value ∧
      (∀ side, r'.inbox side = []) ∧
      ∀ key', key' ∈ r'.unsent side → key' ∈ r.unsent side := by
  intro r'
  obtain ⟨old, hold⟩ := Option.ne_none_iff_exists'.mp hheld
  refine ⟨?_, ?_, ?_, ?_⟩
  · simp [r', apply, hempty, hanswer, hold]
  · simp [r', apply, hempty, hupdate]
  · intro side'
    by_cases hside : side' = side
    · subst hside
      simp [r', apply, hempty]
    · rw [Side.eq_other_of_ne hside]
      simp [r', apply, hempty]
  · intro key' hmem
    simp [r', apply, hempty] at hmem
    obtain ⟨rfl | hold, hnone⟩ := hmem
    · simp [hupdate] at hnone
    · exact hold

end Owner

/-! ### Every key has an owner -/

section Owners

variable {owner : K → Side} {r : Replicas K V}

omit [DecidableEq K]

/-- Each key is coherent, no value of it is on its way to its owner, and only
its owner has changed it. -/
structure Owned (owner : K → Side) (r : Replicas K V) : Prop where
  coherent : ∀ key, Coherent (owner key) key r
  quiet : ∀ key, Quiet (owner key) key r
  unsent : ∀ side, ∀ key ∈ r.unsent side, owner key = side

/-- A move in which each side changes and sends only the keys it owns. -/
def Allowed (owner : K → Side) (r : Replicas K V) : Move K V → Prop
  | .edit side key _ => owner key = side
  | .send side update _ => ∀ key, update key ≠ none →
      owner key = side ∧ update key = r.copy side key
  | .deliver _ => True

theorem Owned.respects (h : Owned owner r) {move : Move K V} (hmove : Allowed owner r move)
    (key : K) : Respects (owner key) key r move := by
  cases move with
  | edit side key' value =>
      rintro rfl
      exact ⟨hmove.symm, h.quiet key'⟩
  | send side update marks =>
      intro hcarries
      obtain ⟨hside, heq⟩ := hmove key hcarries
      rw [if_pos hside.symm]
      exact ⟨heq, h.quiet key⟩
  | deliver side => trivial

/-- Once everything is sent and has arrived, the replicas are equal. -/
theorem Owned.copy_eq (h : Owned owner r) (hsent : ∀ side key, key ∉ r.unsent side)
    (hempty : ∀ side, r.inbox side = []) (key : K) :
    r.copy .left key = r.copy .right key := by
  have heq := (h.coherent key).copy_eq_of_empty (hsent _ key) (hempty _)
  cases hside : owner key <;> rw [hside] at heq
  · exact heq.symm
  · exact heq

variable [DecidableEq K]

theorem quiet_apply (h : Owned owner r) {move : Move K V} (hmove : Allowed owner r move)
    (key : K) : Quiet (owner key) key (r.apply move) := by
  cases move with
  | edit side key' value => exact h.quiet key
  | send side update marks =>
      intro sent hmem
      rw [inbox_send] at hmem
      split_ifs at hmem with hside
      · rw [List.mem_append, List.mem_singleton] at hmem
        rcases hmem with hold | rfl
        · exact h.quiet key sent hold
        · by_contra hcarries
          rw [(hmove key hcarries).1] at hside
          exact Side.ne_other side hside
      · exact h.quiet key sent hmem
  | deliver side =>
      intro sent hmem
      cases hinbox : r.inbox side with
      | nil =>
          rw [apply_deliver_nil hinbox] at hmem
          exact h.quiet key sent hmem
      | cons update rest =>
          rw [inbox_deliver hinbox] at hmem
          split_ifs at hmem with hside
          · exact h.quiet key sent (by simp [hside, hinbox, hmem])
          · exact h.quiet key sent hmem

theorem unsent_apply (h : Owned owner r) {move : Move K V} (hmove : Allowed owner r move) :
    ∀ side, ∀ key ∈ (r.apply move).unsent side, owner key = side := by
  intro side key hmem
  cases move with
  | edit side' key' value =>
      rcases (mem_unsent_edit value).mp hmem with ⟨rfl, rfl⟩ | hold
      · exact hmove
      · exact h.unsent side key hold
  | send side' update marks => exact h.unsent side key ((mem_unsent_send update marks).mp hmem).1
  | deliver side' => exact h.unsent side key (mem_unsent_deliver.mp hmem)

theorem owned_apply (h : Owned owner r) {move : Move K V} (hmove : Allowed owner r move) :
    Owned owner (r.apply move) where
  coherent key := coherent_apply (h.coherent key) (h.respects hmove key)
  quiet := quiet_apply h hmove
  unsent := unsent_apply h hmove

theorem owned_foldl (h : Owned owner r) {moves : List (Move K V)}
    (hmoves : Along (Allowed owner) r moves) : Owned owner (moves.foldl apply r) :=
  along_invariant (I := Owned owner) (fun _ _ h hmove => owned_apply h hmove) hmoves h

omit [DecidableEq K] in
/-- An update on its way may come as several that bring the same. -/
theorem owned_split {r' : Replicas K V} {side : Side} (h : Owned owner r)
    (hcopy : r'.copy = r.copy) (hunsent : r'.unsent = r.unsent)
    {update : K → Option V} {rest updates : List (K → Option V)}
    (hinbox : r.inbox side = update :: rest) (hinbox' : r'.inbox side = updates ++ rest)
    (hother : r'.inbox side.other = r.inbox side.other)
    (hsame : ∀ key value, arrived updates key value = (update key).or value)
    (hcarries : ∀ part ∈ updates, ∀ key, part key ≠ none → update key ≠ none) :
    Owned owner r' := by
  have hquiet : ∀ key, Quiet (owner key) key r' := by
    intro key part hpart
    by_cases hside : owner key = side
    · rw [hside, hinbox', List.mem_append] at hpart
      have hnone := h.quiet key
      rw [hside] at hnone
      rcases hpart with hnew | hold
      · by_contra hsome
        exact hcarries part hnew key hsome (hnone update (by simp [hinbox]))
      · exact hnone part (by simp [hinbox, hold])
    · rw [Side.eq_other_of_ne hside, hother] at hpart
      have hnone := h.quiet key
      rw [Side.eq_other_of_ne hside] at hnone
      exact hnone part hpart
  have harrived : ∀ s key value,
      arrived (r'.inbox s) key value = arrived (r.inbox s) key value := by
    intro s key value
    by_cases hside : s = side
    · rw [hside, hinbox, hinbox']
      have hparts := hsame key value
      simp only [arrived, List.foldl_append, List.foldl_cons] at hparts ⊢
      rw [hparts]
    · rw [Side.eq_other_of_ne hside, hother]
  exact
    { coherent := fun key =>
        { current := fun hsent => by
            rw [harrived, hcopy]
            exact (h.coherent key).current (hunsent ▸ hsent)
          echoes := fun part hpart hsome => absurd (hquiet key part hpart) hsome }
      quiet := hquiet
      unsent := fun s key hkey => h.unsent s key (hunsent ▸ hkey) }

end Owners

/-! ### Updates that are sent together -/

section Sends

variable {r : Replicas K V} {side side' : Side} {key : K} {updates : List (K → Option V)}

omit [DecidableEq K] in
/-- The moves that send these updates one after the other. -/
def sends (side : Side) (updates : List (K → Option V)) : List (Move K V) :=
  updates.map fun update => .send side update true

theorem copy_sends : ((sends side' updates).foldl apply r).copy side key = r.copy side key := by
  induction updates generalizing r with
  | nil => rfl
  | cons update updates ih => exact ih

theorem mem_unsent_sends :
    key ∈ ((sends side' updates).foldl apply r).unsent side ↔
      key ∈ r.unsent side ∧ ¬ (side = side' ∧ ∃ update ∈ updates, update key ≠ none) := by
  induction updates generalizing r with
  | nil => simp [sends]
  | cons update updates ih =>
      refine (ih (r := r.apply (.send side' update true))).trans ?_
      rw [mem_unsent_send]
      simp only [List.mem_cons, exists_eq_or_imp, true_and]
      constructor
      · rintro ⟨⟨hmem, hfirst⟩, hrest⟩
        refine ⟨hmem, ?_⟩
        rintro ⟨hside, hhere | hlater⟩
        · exact hfirst ⟨hside, hhere⟩
        · exact hrest ⟨hside, hlater⟩
      · rintro ⟨hmem, hnone⟩
        exact ⟨⟨hmem, fun h => hnone ⟨h.1, Or.inl h.2⟩⟩, fun h => hnone ⟨h.1, Or.inr h.2⟩⟩

theorem inbox_sends :
    ((sends side' updates).foldl apply r).inbox side =
      if side = side'.other then r.inbox side ++ updates else r.inbox side := by
  induction updates generalizing r with
  | nil => simp [sends]
  | cons update updates ih =>
      refine (ih (r := r.apply (.send side' update true))).trans ?_
      rw [inbox_send]
      split_ifs <;> simp

theorem along_sends {owner : K → Side}
    (h : ∀ update ∈ updates, ∀ key, update key ≠ none →
      owner key = side ∧ update key = r.copy side key) :
    Along (Allowed owner) r (sends side updates) := by
  induction updates generalizing r with
  | nil => trivial
  | cons update updates ih =>
      exact ⟨h update List.mem_cons_self, ih fun later hlater =>
        h later (List.mem_cons_of_mem _ hlater)⟩

end Sends

end Replicas

end Cositos
