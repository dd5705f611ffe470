import Std.Data.TreeSet
import ClassWeave.Analysis.Fixpoint

/-!
# Frames and maxima of a body

`reframe` replaces the frames, the maxima and the exception ranges of a body by what its states
say. Code that no path reaches becomes `nop … athrow` and is cut out of the exception ranges. A
frame stands at each branch and handler target, behind each instruction that control does not
pass, and at the start of each unreachable run. Labels are bound where one is needed and none is
there yet.
-/

set_option autoImplicit false

namespace ClassWeave

/-- Labels by the instruction they stand in front of: the ones in use, and those still to be
bound. -/
structure Labelling where
  known : Std.TreeMap Nat Label
  pending : Std.TreeMap Nat Label
  next : UInt32

namespace Labelling

def ofPositions (positions : Positions) (next : UInt32) : Labelling :=
  let known := positions.foldl (fun known number i => known.insertIfNew i ⟨number⟩)
    (∅ : Std.TreeMap Nat Label)
  ⟨known, ∅, next⟩

def labelAt (i : Nat) : StateM Labelling Label := fun l =>
  match l.known[i]? with
  | some label => (label, l)
  | none =>
    let label : Label := ⟨l.next⟩
    (label, ⟨l.known.insert i label, l.pending.insert i label, l.next + 1⟩)

/-- The instructions with the pending labels bound; `i` is the number of the next one. -/
def bindPending (pending : Std.TreeMap Nat Label) : Nat → List Insn → List Insn → List Insn
  | i, [], done =>
    match pending[i]? with
    | some label => (Insn.label label :: done).reverse
    | none => done.reverse
  | i, insn :: rest, done =>
    if insn.isExecuted then
      match pending[i]? with
      | some label => bindPending pending (i + 1) rest (insn :: .label label :: done)
      | none => bindPending pending (i + 1) rest (insn :: done)
    else bindPending pending i rest (insn :: done)

end Labelling

namespace Reframe

/-- Frames left from before, by instruction; of two at one instruction the later one counts. -/
def hintStates (c : Code) (positions : Positions) (count maxLocals : Nat) :
    Std.TreeMap Nat State :=
  let frames := match c.frames with
    | some (f :: rest) => f :: rest
    | _ => c.hints
  frames.foldl (fun hints (label, frame) =>
    match positions.find? label with
    | some i => if i < count then hints.insert i (State.ofFrame frame maxLocals) else hints
    | none => hints) ∅

/-- Adds labels for the `new` instructions, in order; `i` is the number of the next one. -/
def siteLabels : Nat → List Insn → Std.TreeMap Nat Label → StateM Labelling (Std.TreeMap Nat Label)
  | _, [], sites => pure sites
  | i, insn :: rest, sites => do
    match insn with
    | .typeOp op _ =>
      if op = Opcode.new then
        let label ← Labelling.labelAt i
        siteLabels (i + 1) rest (sites.insert i label)
      else siteLabels (i + 1) rest sites
    | _ => siteLabels (i + 1) rest sites

/-- The runs of live instructions among the next `n` from `i` on; `begun` is the start of the
run that is open. Runs in `done` come last first. -/
def liveRunsFrom (live : Nat → Bool) : Nat → Nat → Option Nat → List (Nat × Nat) →
    List (Nat × Nat)
  | 0, i, begun, done =>
    match begun with
    | some start => ((start, i) :: done).reverse
    | none => done.reverse
  | n + 1, i, begun, done =>
    match begun with
    | some start =>
      if live i then liveRunsFrom live n (i + 1) begun done
      else liveRunsFrom live n (i + 1) none ((start, i) :: done)
    | none =>
      if live i then liveRunsFrom live n (i + 1) (some i) done
      else liveRunsFrom live n (i + 1) none done

def liveRuns (live : Nat → Bool) (start finish : Nat) : List (Nat × Nat) :=
  liveRunsFrom live (finish - start) start none []

/-- The entries for the live parts of a range. A part that is the whole range keeps its labels. -/
def liveHandlers (live : Nat → Bool) (r : HandlerRange) : StateM Labelling (List Handler) :=
  (liveRuns live r.start r.finish).mapM fun (start, finish) => do
    if start = r.start ∧ finish = r.finish then return r.handler
    let startLabel ← Labelling.labelAt start
    let finishLabel ← Labelling.labelAt finish
    return { r.handler with start := startLabel, finish := finishLabel }

/-- The instructions with each unreachable run replaced; `i` is the number of the next one. -/
def buryDead (live : Nat → Bool) (count : Nat) : Nat → List Insn → List Insn → List Insn
  | _, [], done => done.reverse
  | i, insn :: rest, done =>
    if insn.isExecuted then
      let kept := if live i then insn
        else if i + 1 < count ∧ ¬ live (i + 1) then .simple Opcode.nop
        else .simple Opcode.athrow
      buryDead live count (i + 1) rest (kept :: done)
    else buryDead live count i rest (insn :: done)

/-- The state at the start of an unreachable run. -/
def deadState : State := ⟨[], [.object "java/lang/Throwable"]⟩

def blocksFlow (f : Flow) (i : Nat) : Bool :=
  match f.insns[i]? with
  | some insn => (insn.opcode?.map Opcode.neverPasses).getD false
  | none => false

def framedState (f : Flow) (states : States) (targets : Std.TreeSet Nat) (i : Nat) :
    Option State :=
  match (states[i]?).getD none with
  | some state =>
    if targets.contains i || (0 < i && blocksFlow f (i - 1)) then some state else none
  | none =>
    if i = 0 ∨ ((states[i - 1]?).getD none).isSome then some deadState else none

def labelledFrames (f : Flow) (states : States) (targets : Std.TreeSet Nat) :
    StateM Labelling (List LabelledFrame) := do
  let framed := (List.range f.size).filterMap fun i =>
    (framedState f states targets i).map (i, ·)
  framed.mapM fun (i, state) => do
    let label ← Labelling.labelAt i
    return (label, state.toFrame)

structure Prepared where
  analysis : Analysis
  entry : State
  maxLocals : Nat
  targets : List Nat
  labels : Labelling

def prepare (h : Hierarchy) (owner : String) (m : Method) (c : Code) :
    Except WriteError Prepared := do
  let method : MethodSite := ⟨owner, owner ++ "." ++ m.name ++ m.desc⟩
  let d ← orMalformed m.descriptor
  let params := d.paramSlots.toNat + if m.isStatic then 0 else 1
  let maxLocals := localsNeeded c params
  let flow ← Flow.ofCode method c
  let hints := hintStates c flow.positions flow.size maxLocals
  let (sites, labels) := (siteLabels 0 flow.insns.toList ∅).run
    (Labelling.ofPositions flow.positions c.nextLabel)
  let targets ← flow.jumpTargets
  let entry : State := ⟨expandLocals (entryLocals owner m.access m.name d) maxLocals, []⟩
  return ⟨⟨method, h, flow, sites, hints⟩, entry, maxLocals, targets, labels⟩

namespace Prepared

def settle (p : Prepared) : Except WriteError Progress := p.analysis.run p.entry p.maxLocals

def withMaxima (p : Prepared) (done : Progress) (c : Code) : Code :=
  { c with
    maxStack := UInt16.ofNat done.maxStack
    maxLocals := UInt16.ofNat p.maxLocals
    frames := some []
    hints := []
    nextLabel := p.labels.next }

def withFrames (p : Prepared) (done : Progress) (c : Code) : Code :=
  let flow := p.analysis.flow
  let live := fun i => ((done.states[i]?).getD none).isSome
  let (handlers, labels) := (flow.ranges.mapM (liveHandlers live)).run p.labels
  let (frames, labels) :=
    (labelledFrames flow done.states (Std.TreeSet.ofList p.targets)).run labels
  let insns := buryDead live flow.size 0 c.insns []
  { c with
    maxStack := UInt16.ofNat
      (if done.states.any Option.isNone then max done.maxStack 1 else done.maxStack)
    maxLocals := UInt16.ofNat p.maxLocals
    insns := Labelling.bindPending labels.pending 0 insns []
    handlers := handlers.flatten
    frames := some frames
    hints := []
    nextLabel := labels.next }

def finish (p : Prepared) (withFrames : Bool) (done : Progress) (c : Code) : Code :=
  if withFrames then p.withFrames done c else p.withMaxima done c

end Prepared

end Reframe

/-- The body with frames and maxima computed from its instructions. Without `withFrames` only the
maxima are computed and no frame is left. -/
def reframe (h : Hierarchy) (owner : String) (m : Method) (c : Code) (withFrames : Bool) :
    Except WriteError Code := do
  let p ← Reframe.prepare h owner m c
  let done ← p.settle
  return p.finish withFrames done c

end ClassWeave
