/-
The frame loop of the split, read as a recursion.

`separateLoop` keeps its pending work on an explicit stack.  `visit` does the
same work by recursion on the levels left below the depth cap, on any graph of
objects, cyclic ones included; `separate_eq_visit` lets every later proof use
the recursion in place of the loop.
-/
import Cositos.Buffers

namespace Cositos

namespace Buffers

variable {O ι : Type}

/-- A finished container: its clone, if one was made, and the binary values
found below it. -/
abbrev Visited (O : Type) := Option (Clone O) × List (Path × Binary)

section Visit

variable (G : Objects O ι)

/-- The clone of `o` once the child under `key` has been visited. -/
def nextClone (o : O) (cloned : Option (Clone O)) (key : Key) :
    Option (Clone O) → Option (Clone O)
  | none => cloned
  | some nested => some (setItem (cloned.getD (clone G o)) key nested)

/-- Run through the pairs of the container `o` at `path`; `sub` visits a child
container. -/
def visitItems (o : O) (path : Path) (sub : Key → O → Except PyError (Visited O)) :
    List (Key × O) → Option (Clone O) → Except PyError (Visited O)
  | [], cloned => .ok (cloned, [])
  | (key, value) :: kvs, cloned =>
      match G.node value with
      | .binary b => do
          let next := extractBinary (cloned.getD (clone G o)) key
          let (result, found) ← visitItems o path sub kvs (some next)
          return (result, (path ++ [key], b) :: found)
      | .scalar => visitItems o path sub kvs cloned
      | .seq _ | .dict _ => do
          let (nested, inner) ← sub key value
          let (result, found) ← visitItems o path sub kvs (nextClone G o cloned key nested)
          return (result, inner ++ found)

theorem visitItems_container {o : O} {path : Path}
    {sub : Key → O → Except PyError (Visited O)} {key : Key} {value : O}
    (hnode : (G.node value).isContainer = true) (kvs : List (Key × O))
    (cloned : Option (Clone O)) :
    visitItems G o path sub ((key, value) :: kvs) cloned =
      (do
        let (nested, inner) ← sub key value
        let (result, found) ← visitItems G o path sub kvs (nextClone G o cloned key nested)
        return (result, inner ++ found)) := by
  cases h : G.node value <;> simp [h, Node.isContainer] at hnode <;>
    simp only [visitItems, h]

/-- Visit the container `o` with `n` levels allowed below it.  `ancestors`
already holds `o` itself. -/
def visit [DecidableEq ι] :
    Nat → List ι → Path → O → Except PyError (Visited O)
  | 0, _, path, o =>
      visitItems G o path (fun _ _ => .error (.nesting path)) (items G o) none
  | n + 1, ancestors, path, o =>
      visitItems G o path
        (fun key value =>
          let ident := G.ident (path ++ [key]) value
          if ident ∈ ancestors then .error (.cyclic path)
          else visit n (ancestors ++ [ident]) (path ++ [key]) value)
        (items G o) none

/-- How `visit n` treats the child containers. -/
def visitChild [DecidableEq ι] (n : Nat) (ancestors : List ι) (path : Path)
    (key : Key) (value : O) : Except PyError (Visited O) :=
  match n with
  | 0 => .error (.nesting path)
  | n + 1 =>
      if G.ident (path ++ [key]) value ∈ ancestors then .error (.cyclic path)
      else visit G n (ancestors ++ [G.ident (path ++ [key]) value]) (path ++ [key]) value

theorem visit_eq [DecidableEq ι] (n : Nat) (ancestors : List ι) (path : Path) (o : O) :
    visit G n ancestors path o =
      visitItems G o path (visitChild G n ancestors path) (items G o) none := by
  cases n <;> rfl

/-- Turns of the loop for a child, with `n` levels allowed below its parent. -/
def turnsBelow (n : Nat) (o : O) : Nat :=
  match n with
  | 0 => 0
  | n + 1 => turns G n o

theorem turns_eq (n : Nat) (o : O) :
    turns G n o = turnsItems G (turnsBelow G n) (items G o) + 1 := by
  cases n <;> rfl

theorem turnsItems_cons (t : O → Nat) (key : Key) (value : O) (kvs : List (Key × O)) :
    turnsItems G t ((key, value) :: kvs) = turnsItem G t value + turnsItems G t kvs := by
  simp [turnsItems]

theorem turnsItem_container {t : O → Nat} {value : O}
    (hnode : (G.node value).isContainer = true) :
    turnsItem G t value = t value + 1 := by
  cases h : G.node value <;> simp [h, Node.isContainer] at hnode <;>
    simp [turnsItem, h]

end Visit

section Loop

variable [DecidableEq ι] (G : Objects O ι) (substate : O)

/-- Continue the loop with the pairs `kvs` left in the top frame, once some of
its pairs have been visited. -/
def continueLoop (fuel : Nat) (frame : Frame O ι) (kvs : List (Key × O))
    (stack : List (Frame O ι)) (bufferPaths : List Path) (buffers : List Binary) :
    Except PyError (Visited O) → Except PyError (Split (Clone O))
  | .error e => .error e
  | .ok (cloned, found) =>
      separateLoop G substate fuel
        ({ frame with iterator := kvs, clone := cloned } :: stack)
        (bufferPaths ++ found.map Prod.fst) (buffers ++ found.map Prod.snd)

theorem separateLoop_container {frame : Frame O ι} {key : Key} {value : O}
    {kvs : List (Key × O)} {cloned : Option (Clone O)}
    (hnode : (G.node value).isContainer = true) (fuel : Nat) (stack : List (Frame O ι))
    (bufferPaths : List Path) (buffers : List Binary) :
    separateLoop G substate (fuel + 1)
        ({ frame with iterator := (key, value) :: kvs, clone := cloned } :: stack)
        bufferPaths buffers =
      if frame.depth + 1 > maxDepth then .error (.nesting frame.path)
      else if G.ident (frame.path ++ [key]) value ∈ frame.ancestors then
        .error (.cyclic frame.path)
      else
        separateLoop G substate fuel
          (({ frame with iterator := kvs, clone := cloned } : Frame O ι).child G key value ::
            { frame with iterator := kvs, clone := cloned } :: stack) bufferPaths buffers := by
  cases h : G.node value <;> simp [h, Node.isContainer] at hnode <;>
    simp only [separateLoop, h]

/-- Leaves found earlier may be recorded before the loop goes on. -/
theorem continueLoop_append (fuel : Nat) (frame : Frame O ι) (stack : List (Frame O ι))
    (bufferPaths : List Path) (buffers : List Binary) (inner : List (Path × Binary))
    (result : Except PyError (Visited O)) :
    continueLoop G substate fuel frame [] stack bufferPaths buffers
        (do let (cloned, found) ← result; return (cloned, inner ++ found)) =
      continueLoop G substate fuel frame [] stack (bufferPaths ++ inner.map Prod.fst)
        (buffers ++ inner.map Prod.snd) result := by
  cases result with
  | error e => rfl
  | ok r => simp [continueLoop, pure, Except.pure, bind, Except.bind]

/-- The loop treats the child containers of frames with `n` levels below them
as `visitChild` does. -/
def LoopVisitsChild (n : Nat) : Prop :=
  ∀ (frame : Frame O ι), frame.depth + n = maxDepth →
    ∀ (key : Key) (value : O), (G.node value).isContainer = true →
      ∀ fuel kvs cloned stack bufferPaths buffers,
        separateLoop G substate (turnsBelow G n value + 1 + fuel)
            ({ frame with iterator := (key, value) :: kvs, clone := cloned } :: stack)
            bufferPaths buffers =
          continueLoop G substate fuel frame kvs stack bufferPaths buffers
            ((visitChild G n frame.ancestors frame.path key value).map
              (Prod.map (nextClone G frame.state cloned key) id))

/-- The loop runs through the pairs of such frames as `visitItems` does, and
leaves the frames below untouched. -/
def LoopVisitsItems (n : Nat) : Prop :=
  ∀ (frame : Frame O ι), frame.depth + n = maxDepth →
    ∀ kvs fuel cloned stack bufferPaths buffers,
      separateLoop G substate (turnsItems G (turnsBelow G n) kvs + fuel)
          ({ frame with iterator := kvs, clone := cloned } :: stack) bufferPaths buffers =
        continueLoop G substate fuel frame [] stack bufferPaths buffers
          (visitItems G frame.state frame.path
            (visitChild G n frame.ancestors frame.path) kvs cloned)

theorem loopVisitsItems_of_child {n : Nat} (hchild : LoopVisitsChild G substate n) :
    LoopVisitsItems G substate n := by
  intro frame hdepth kvs
  induction kvs with
  | nil =>
      intro fuel cloned stack bufferPaths buffers
      simp [turnsItems, visitItems, continueLoop]
  | cons head tail ih =>
      intro fuel cloned stack bufferPaths buffers
      obtain ⟨key, value⟩ := head
      rw [turnsItems_cons, Nat.add_assoc]
      by_cases hcontainer : (G.node value).isContainer = true
      · rw [turnsItem_container G hcontainer, hchild frame hdepth key value hcontainer,
          visitItems_container G hcontainer]
        cases visitChild G n frame.ancestors frame.path key value with
        | error e => rfl
        | ok visited =>
            obtain ⟨nested, inner⟩ := visited
            have hrest := ih fuel (nextClone G frame.state cloned key nested) stack
              (bufferPaths ++ inner.map Prod.fst) (buffers ++ inner.map Prod.snd)
            refine Eq.trans hrest ?_
            exact (continueLoop_append G substate fuel frame stack bufferPaths buffers inner _).symm
      cases hnode : G.node value with
      | scalar =>
          have hturn : turnsItem G (turnsBelow G n) value = 1 := by simp [turnsItem, hnode]
          rw [hturn, Nat.add_comm 1]
          simp only [separateLoop, visitItems, hnode]
          exact ih fuel cloned stack bufferPaths buffers
      | binary b =>
          have hturn : turnsItem G (turnsBelow G n) value = 1 := by simp [turnsItem, hnode]
          rw [hturn, Nat.add_comm 1]
          simp only [separateLoop, visitItems, hnode]
          have hrest := ih fuel (some (extractBinary (cloned.getD (clone G frame.state)) key))
            stack (bufferPaths ++ [frame.path ++ [key]]) (buffers ++ [b])
          refine Eq.trans hrest ?_
          exact (continueLoop_append G substate fuel frame stack bufferPaths buffers
            [(frame.path ++ [key], b)] _).symm
      | seq xs => simp [hnode, Node.isContainer] at hcontainer
      | dict kvs => simp [hnode, Node.isContainer] at hcontainer

/-- A child container is pushed, run through, and popped into its parent. -/
theorem loopVisitsChild_succ {n : Nat} (hitems : LoopVisitsItems G substate n) :
    LoopVisitsChild G substate (n + 1) := by
  intro frame hdepth key value hcontainer fuel kvs cloned stack bufferPaths buffers
  have hcap : ¬ frame.depth + 1 > maxDepth := by omega
  have hturns : turnsBelow G (n + 1) value + 1 + fuel =
      turnsItems G (turnsBelow G n) (items G value) + (fuel + 1) + 1 := by
    rw [turnsBelow, turns_eq]
    omega
  rw [hturns, separateLoop_container G substate hcontainer]
  simp only [hcap, ↓reduceIte, visitChild]
  by_cases hcycle : G.ident (frame.path ++ [key]) value ∈ frame.ancestors
  · simp [hcycle, continueLoop, Except.map]
  · simp only [hcycle, ↓reduceIte]
    rw [visit_eq]
    have hchild := hitems
      (({ frame with iterator := kvs, clone := cloned } : Frame O ι).child G key value)
      (by simp only [Frame.child]; omega) (items G value) (fuel + 1) none
      ({ frame with iterator := kvs, clone := cloned } :: stack) bufferPaths buffers
    refine Eq.trans hchild ?_
    simp only [Frame.child]
    cases visitItems G value (frame.path ++ [key]) (visitChild G n
        (frame.ancestors ++ [G.ident (frame.path ++ [key]) value]) (frame.path ++ [key]))
        (items G value) none with
    | error e => rfl
    | ok visited =>
        obtain ⟨nested, inner⟩ := visited
        cases nested <;> rfl

theorem loopVisitsItems (n : Nat) : LoopVisitsItems G substate n := by
  induction n with
  | zero =>
      apply loopVisitsItems_of_child
      intro frame hdepth key value hcontainer fuel kvs cloned stack bufferPaths buffers
      have hcap : frame.depth + 1 > maxDepth := by omega
      have hturns : turnsBelow G 0 value + 1 + fuel = fuel + 1 := by
        simp only [turnsBelow]
        omega
      rw [hturns, separateLoop_container G substate hcontainer]
      simp [hcap, visitChild, continueLoop, Except.map]
  | succ n ih => exact loopVisitsItems_of_child G substate (loopVisitsChild_succ G substate ih)

end Loop

/-! ### The loop ends -/

section Ends

variable (G : Objects O ι)

/-- The stack with the paths and buffers recorded so far. -/
abbrev LoopState (O ι : Type) := List (Frame O ι) × List Path × List Binary

/-- One turn of the `while stack` loop: the loop goes on, or it is over.  The
turn of an empty stack, which the source never takes, is left out. -/
def turn [DecidableEq ι] : LoopState O ι → Option (LoopState O ι ⊕ Except PyError (Split (Clone O)))
  | ([], _, _) => none
  | (frame :: stack, bufferPaths, buffers) =>
      match frame.iterator with
      | [] =>
          match stack with
          | [] => some (.inr (.ok (frame.clone.getD (.same frame.state), bufferPaths, buffers)))
          | parent :: stack => some (.inl (parent.receive G frame :: stack, bufferPaths, buffers))
      | (key, value) :: iterator =>
          let frame := { frame with iterator := iterator }
          match G.node value with
          | .binary b =>
              let cloned := some (extractBinary (frame.cloned G) key)
              some (.inl ({ frame with clone := cloned } :: stack,
                bufferPaths ++ [frame.path ++ [key]], buffers ++ [b]))
          | .scalar => some (.inl (frame :: stack, bufferPaths, buffers))
          | .seq _ | .dict _ =>
              if frame.depth + 1 > maxDepth then
                some (.inr (.error (.nesting frame.path)))
              else if G.ident (frame.path ++ [key]) value ∈ frame.ancestors then
                some (.inr (.error (.cyclic frame.path)))
              else
                some (.inl (frame.child G key value :: frame :: stack, bufferPaths, buffers))

/-- The loop, without a bound on its turns, ends with a result. -/
inductive Ends [DecidableEq ι] : LoopState O ι → Except PyError (Split (Clone O)) → Prop
  | now {loop : LoopState O ι} {result : Except PyError (Split (Clone O))}
      (h : turn G loop = some (.inr result)) : Ends loop result
  | later {loop next : LoopState O ι} {result : Except PyError (Split (Clone O))}
      (h : turn G loop = some (.inl next)) (hnext : Ends next result) : Ends loop result

/-- Turns until every frame of a stack is done. -/
def turnsLeft (stack : List (Frame O ι)) : Nat :=
  stack.foldr
    (fun frame n => turnsItems G (turnsBelow G (maxDepth - frame.depth)) frame.iterator + 1 + n) 0

theorem turnsLeft_cons (frame : Frame O ι) (stack : List (Frame O ι)) :
    turnsLeft G (frame :: stack) =
      turnsItems G (turnsBelow G (maxDepth - frame.depth)) frame.iterator + 1 +
        turnsLeft G stack := rfl

/-- No frame of the stack is deeper than the cap. -/
def WithinCap (stack : List (Frame O ι)) : Prop := ∀ frame ∈ stack, frame.depth ≤ maxDepth

theorem turnsItem_leaf {O : Type} {G : Objects O ι} {t : O → Nat} {value : O}
    (hnode : (G.node value).isContainer = false) : turnsItem G t value = 1 := by
  cases h : G.node value <;> simp [h, Node.isContainer] at hnode <;> simp [turnsItem, h]

theorem receive_depth (parent frame : Frame O ι) :
    (parent.receive G frame).depth = parent.depth := by
  unfold Frame.receive
  split <;> rfl

theorem receive_iterator (parent frame : Frame O ι) :
    (parent.receive G frame).iterator = parent.iterator := by
  unfold Frame.receive
  split <;> rfl

variable [DecidableEq ι]

theorem turn_container {frame : Frame O ι} {key : Key} {value : O}
    {iterator : List (Key × O)} (hiterator : frame.iterator = (key, value) :: iterator)
    (hnode : (G.node value).isContainer = true) (stack : List (Frame O ι))
    (bufferPaths : List Path) (buffers : List Binary) :
    turn G (frame :: stack, bufferPaths, buffers) =
      if frame.depth + 1 > maxDepth then some (.inr (.error (.nesting frame.path)))
      else if G.ident (frame.path ++ [key]) value ∈ frame.ancestors then
        some (.inr (.error (.cyclic frame.path)))
      else
        some (.inl
          (({ frame with iterator := iterator } : Frame O ι).child G key value ::
            { frame with iterator := iterator } :: stack, bufferPaths, buffers)) := by
  cases h : G.node value <;> simp [h, Node.isContainer] at hnode <;>
    simp only [turn, hiterator, h]

/-- Every turn that goes on has one turn less before it, and pushes no frame
beyond the cap. -/
theorem turn_goes_on {loop next : LoopState O ι} (h : turn G loop = some (.inl next))
    (hcap : WithinCap loop.1) :
    WithinCap next.1 ∧ turnsLeft G loop.1 = turnsLeft G next.1 + 1 := by
  obtain ⟨stack, bufferPaths, buffers⟩ := loop
  rcases stack with _ | ⟨frame, stack⟩
  · cases h
  obtain ⟨hframe, hstack⟩ := List.forall_mem_cons.mp hcap
  rw [turnsLeft_cons]
  cases hiterator : frame.iterator with
  | nil =>
      rcases stack with _ | ⟨parent, stack⟩
      · simp [turn, hiterator] at h
      · simp only [turn, hiterator, Option.some.injEq, Sum.inl.injEq] at h
        subst h
        obtain ⟨hparent, hstack⟩ := List.forall_mem_cons.mp hstack
        refine ⟨List.forall_mem_cons.mpr ⟨?_, hstack⟩, ?_⟩
        · rw [receive_depth]
          exact hparent
        · rw [turnsLeft_cons, turnsLeft_cons, receive_depth, receive_iterator]
          simp only [turnsItems, List.foldr_nil]
          omega
  | cons head iterator =>
      obtain ⟨key, value⟩ := head
      rw [turnsItems_cons]
      by_cases hnode : (G.node value).isContainer = true
      · rw [turn_container G hiterator hnode] at h
        split_ifs at h with hdepth hcycle
        · cases h
        · cases h
        · simp only [Option.some.injEq, Sum.inl.injEq] at h
          subst h
          refine ⟨?_, ?_⟩
          · simp only [WithinCap, List.forall_mem_cons]
            exact ⟨Nat.le_of_not_gt hdepth, hframe, hstack⟩
          · rw [turnsLeft_cons, turnsLeft_cons, turnsItem_container G hnode]
            obtain ⟨n, hn⟩ : ∃ n, maxDepth - frame.depth = n + 1 :=
              ⟨maxDepth - frame.depth - 1, by omega⟩
            have hbelow : maxDepth - (frame.depth + 1) = n := by omega
            simp only [Frame.child, hn, hbelow, turnsBelow, turns_eq]
            omega
      · have hleaf := turnsItem_leaf (t := turnsBelow G (maxDepth - frame.depth))
          (Bool.eq_false_iff.mpr hnode)
        have hgoes : ∃ frame' : Frame O ι, next.1 = frame' :: stack ∧
            frame'.depth = frame.depth ∧ frame'.iterator = iterator := by
          cases hvalue : G.node value with
          | scalar =>
              simp only [turn, hiterator, hvalue, Option.some.injEq, Sum.inl.injEq] at h
              subst h
              exact ⟨_, rfl, rfl, rfl⟩
          | binary b =>
              simp only [turn, hiterator, hvalue, Option.some.injEq, Sum.inl.injEq] at h
              subst h
              exact ⟨_, rfl, rfl, rfl⟩
          | seq xs | dict kvs => simp [hvalue, Node.isContainer] at hnode
        obtain ⟨frame', hnext, hdepth, hrest⟩ := hgoes
        rw [hnext]
        refine ⟨List.forall_mem_cons.mpr ⟨hdepth ▸ hframe, hstack⟩, ?_⟩
        rw [turnsLeft_cons, hleaf, hdepth, hrest]
        omega

theorem turn_isSome {loop : LoopState O ι} (h : loop.1 ≠ []) : (turn G loop).isSome = true := by
  obtain ⟨stack, bufferPaths, buffers⟩ := loop
  rcases stack with _ | ⟨frame, stack⟩
  · exact absurd rfl h
  cases hiterator : frame.iterator with
  | nil => cases stack <;> simp [turn, hiterator]
  | cons head iterator =>
      obtain ⟨key, value⟩ := head
      by_cases hnode : (G.node value).isContainer = true
      · rw [turn_container G hiterator hnode]
        split_ifs <;> rfl
      · cases hvalue : G.node value <;> simp [hvalue, Node.isContainer] at hnode <;>
          simp [turn, hiterator, hvalue]

theorem turn_keeps_stack {loop next : LoopState O ι} (h : turn G loop = some (.inl next)) :
    next.1 ≠ [] := by
  obtain ⟨stack, bufferPaths, buffers⟩ := loop
  rcases stack with _ | ⟨frame, stack⟩
  · cases h
  cases hiterator : frame.iterator with
  | nil =>
      cases stack with
      | nil => simp [turn, hiterator] at h
      | cons parent stack =>
          simp only [turn, hiterator, Option.some.injEq, Sum.inl.injEq] at h
          simp [← h]
  | cons head iterator =>
      obtain ⟨key, value⟩ := head
      by_cases hnode : (G.node value).isContainer = true
      · rw [turn_container G hiterator hnode] at h
        split_ifs at h with hdepth hcycle
        · cases h
        · cases h
        · simp only [Option.some.injEq, Sum.inl.injEq] at h
          simp [← h]
      · cases hvalue : G.node value <;> simp [hvalue, Node.isContainer] at hnode <;>
          simp only [turn, hiterator, hvalue, Option.some.injEq, Sum.inl.injEq] at h <;>
          simp [← h]

/-- On any graph of objects, cyclic ones included, the loop ends. -/
theorem exists_ends {loop : LoopState O ι} (hne : loop.1 ≠ []) (hcap : WithinCap loop.1) :
    ∃ result, Ends G loop result := by
  obtain ⟨n, hn⟩ : ∃ n, turnsLeft G loop.1 = n := ⟨_, rfl⟩
  induction n generalizing loop with
  | zero =>
      obtain ⟨stack, bufferPaths, buffers⟩ := loop
      rcases stack with _ | ⟨frame, stack⟩
      · exact absurd rfl hne
      · rw [turnsLeft_cons] at hn
        omega
  | succ n ih =>
      obtain ⟨outcome, houtcome⟩ := Option.isSome_iff_exists.mp (turn_isSome G hne)
      cases outcome with
      | inr result => exact ⟨result, .now houtcome⟩
      | inl next =>
          obtain ⟨hcap', hturns⟩ := turn_goes_on G houtcome hcap
          obtain ⟨result, hresult⟩ := ih (turn_keeps_stack G houtcome) hcap' (by omega)
          exact ⟨result, .later houtcome hresult⟩

theorem separateLoop_turn (substate : O) (fuel : Nat) {loop : LoopState O ι}
    {outcome : LoopState O ι ⊕ Except PyError (Split (Clone O))}
    (h : turn G loop = some outcome) :
    separateLoop G substate (fuel + 1) loop.1 loop.2.1 loop.2.2 =
      outcome.elim (fun next => separateLoop G substate fuel next.1 next.2.1 next.2.2) id := by
  obtain ⟨stack, bufferPaths, buffers⟩ := loop
  rcases stack with _ | ⟨frame, stack⟩
  · cases h
  cases hiterator : frame.iterator with
  | nil =>
      cases stack <;> simp only [turn, hiterator, Option.some.injEq] at h <;> subst h <;>
        simp [separateLoop, hiterator]
  | cons head iterator =>
      obtain ⟨key, value⟩ := head
      cases hvalue : G.node value with
      | scalar | binary b =>
          simp only [turn, hiterator, hvalue, Option.some.injEq] at h
          subst h
          simp [separateLoop, hiterator, hvalue]
      | seq xs | dict kvs =>
          simp only [turn, hiterator, hvalue] at h
          simp only [separateLoop, hiterator, hvalue]
          split_ifs at h ⊢ <;> simp only [Option.some.injEq] at h <;> subst h <;> rfl

/-- Given as many turns as are left, the bounded loop computes where the
unbounded one ends. -/
theorem Ends.separateLoop_eq {loop : LoopState O ι} {result : Except PyError (Split (Clone O))}
    (h : Ends G loop result) (hcap : WithinCap loop.1) (substate : O) {fuel : Nat}
    (hfuel : turnsLeft G loop.1 ≤ fuel) :
    separateLoop G substate fuel loop.1 loop.2.1 loop.2.2 = result := by
  induction h generalizing fuel with
  | @now loop result hturn =>
      obtain ⟨fuel, rfl⟩ : ∃ n, fuel = n + 1 := by
        rcases fuel with _ | fuel
        · obtain ⟨_ | ⟨frame, stack⟩, bufferPaths, buffers⟩ := loop
          · cases hturn
          · rw [turnsLeft_cons] at hfuel
            omega
        · exact ⟨fuel, rfl⟩
      exact separateLoop_turn G substate fuel hturn
  | later hturn _ ih =>
      obtain ⟨hcap', hturns⟩ := turn_goes_on G hturn hcap
      obtain ⟨fuel, rfl⟩ : ∃ n, fuel = n + 1 := ⟨fuel - 1, by omega⟩
      rw [separateLoop_turn G substate fuel hturn]
      exact ih hcap' (by omega)

end Ends

/-- `_separate` is the recursion from the root, and never runs out of turns. -/
theorem separate_eq_visit [DecidableEq ι] (G : Objects O ι) {o : O} (path : Path)
    (hcontainer : (G.node o).isContainer = true) :
    separate G o path =
      (visit G maxDepth [G.ident path o] path o).map fun visited =>
        (visited.1.getD (.same o), visited.2.map Prod.fst, visited.2.map Prod.snd) := by
  have hloop := loopVisitsItems G o maxDepth
    { state := o, ancestors := [G.ident path o], depth := 0, iterator := items G o,
      clone := none, parentKey := .none, path := path } (by simp)
    (items G o) 1 none [] [] []
  have hseparate : separate G o path =
      separateLoop G o (turnsItems G (turnsBelow G maxDepth) (items G o) + 1)
        [{ state := o, ancestors := [G.ident path o], depth := 0, iterator := items G o,
           clone := none, parentKey := .none, path := path }] [] [] := by
    rw [← turns_eq]
    cases h : G.node o <;> simp [h, Node.isContainer] at hcontainer <;>
      simp only [separate, h]
  rw [hseparate, visit_eq]
  refine Eq.trans hloop ?_
  cases visitItems G o path (visitChild G maxDepth [G.ident path o] path) (items G o) none with
  | error e => rfl
  | ok visited =>
      obtain ⟨cloned, found⟩ := visited
      simp [continueLoop, separateLoop, Except.map]

end Buffers

end Cositos
