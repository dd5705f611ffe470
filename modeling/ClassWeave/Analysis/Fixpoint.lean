import ClassWeave.Analysis.Flow

/-!
# The states of a body

A work list drives the states to a fixpoint. An instruction on the list passes its state to the
handlers that cover it and then, after the instruction, to its successors; whoever sees a new state
joins the list, and the last to join is the first to be served. An instruction that no path
reaches keeps no state.
-/

set_option autoImplicit false

namespace ClassWeave

structure Analysis where
  method : MethodSite
  hierarchy : Hierarchy
  flow : Flow
  sites : Std.TreeMap Nat Label
  hints : Std.TreeMap Nat State

abbrev States := Array (Option State)

/-- The states so far, the instructions still to be served, and the greatest stack height seen. -/
structure Progress where
  states : States
  work : List Nat
  maxStack : Nat

namespace Analysis

variable (a : Analysis)

/-- The state at `i` after `incoming` arrives there, or nothing if it stays the same. -/
def arrive (i : Nat) (current : Option State) (incoming : State) :
    Except WriteError (Option State) :=
  match current with
  | none => .ok (some incoming)
  | some current =>
    if current.stack.length ≠ incoming.stack.length then
      .error (.inconsistentStack a.method.method i)
    else
      let merged := a.hierarchy.joinStates current incoming
      let pinned := match a.hints[i]? with
        | some hint => a.hierarchy.sharpen merged hint
        | none => merged
      .ok (if pinned = current then none else some pinned)

def deliver (states : States) (work : List Nat) (i : Nat) (incoming : State) :
    Except WriteError (States × List Nat) := do
  match ← a.arrive i ((states[i]?).getD none) incoming with
  | none => return (states, work)
  | some new => return (states.setIfInBounds i (some new), i :: work)

def deliverToHandlers (i : Nat) (before : State) : List HandlerRange → States → List Nat →
    Except WriteError (States × List Nat)
  | [], states, work => .ok (states, work)
  | r :: rest, states, work =>
    if r.covers i then do
      let (states, work) ← a.deliver states work r.target ⟨before.locals, [r.caught]⟩
      deliverToHandlers i before rest states work
    else deliverToHandlers i before rest states work

def deliverToSuccessors (after : State) : List Nat → States → List Nat →
    Except WriteError (States × List Nat)
  | [], states, work => .ok (states, work)
  | s :: rest, states, work => do
    if a.flow.size ≤ s then a.method.refuse .fallsOffEnd
    let (states, work) ← a.deliver states work s after
    deliverToSuccessors after rest states work

def serve (i : Nat) (before : State) (insn : Insn) (states : States) (work : List Nat)
    (maxStack : Nat) : Except WriteError Progress := do
  let (states, work) ← a.deliverToHandlers i before a.flow.ranges states work
  let after ← a.method.execute i a.sites[i]? insn before
  let targets ← a.flow.successors i insn
  let (states, work) ← a.deliverToSuccessors after targets states work
  return ⟨states, work, max (max maxStack (stackSlots before.stack)) (stackSlots after.stack)⟩

/-- Serves the work list until it is empty, in at most as many steps as given. -/
def settle : Nat → States → List Nat → Nat → Except WriteError Progress
  | _, states, [], maxStack => .ok ⟨states, [], maxStack⟩
  | 0, _, _ :: _, _ => a.method.refuse .framesUnsettled
  | fuel + 1, states, i :: work, maxStack =>
    match (states[i]?).getD none, a.flow.insns[i]? with
    | some before, some insn =>
      match a.serve i before insn states work maxStack with
      | .ok p => settle fuel p.states p.work p.maxStack
      | .error e => .error e
    | _, _ => settle fuel states work maxStack

/-- The types that the states of a body start from; all others are joins or elements of them. -/
def brought (entry : State) : List VType :=
  entry.entries ++ a.flow.ranges.map HandlerRange.caught ++
    a.flow.insns.toList.flatMap a.method.brings

def dimensions (entry : State) : Nat :=
  (a.brought entry).foldl (fun most t => max most t.dimensions) 0

/-- Steps allowed. Without hints each slot of each state can change its type only as often as there
are types for it to climb to; an array climbs in its elements, and from one dimension to the next.
The factor of `2 ^ 64` is for lists that never empty: no machine comes to the end of it. -/
def budget (entry : State) (maxLocals : Nat) : Nat :=
  let count := a.flow.size + 1
  let slots := entry.locals.length + maxLocals + 4 * count + 4
  let names := (4 * a.dimensions entry + 2) * a.hierarchy.searchBound + 4 * count +
    a.flow.ranges.length + 16
  let deliveries := count * (a.flow.ranges.length + count + 2)
  18446744073709551616 * (deliveries * slots * names)

def run (entry : State) (maxLocals : Nat) : Except WriteError Progress :=
  let states : States := Array.replicate a.flow.size none
  a.settle (a.budget entry maxLocals) (states.setIfInBounds 0 (some entry)) [0] 0

end Analysis

end ClassWeave
