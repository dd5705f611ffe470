import ClassWeave.Frame

/-!
# Method bodies

A body is a list of instructions with labels among them; handlers, local variables and frames name
those labels. Frames are absent once the body has been edited: they are computed anew when it is
written, with the frames from before the edit as hints.
-/

set_option autoImplicit false

namespace ClassWeave

/-- An exception range; without a catch type it catches everything. -/
structure Handler where
  start : Label
  finish : Label
  target : Label
  catchType : Option String
  deriving DecidableEq, Repr, Inhabited

/-- The range of a named local variable. With `generic` set, `desc` is a signature. -/
structure LocalVariable where
  start : Label
  finish : Label
  name : String
  desc : String
  slot : UInt16
  generic : Bool
  deriving DecidableEq, Repr, Inhabited

abbrev LabelledFrame := Label × Frame

structure Code where
  maxStack : UInt16
  maxLocals : UInt16
  insns : List Insn
  handlers : List Handler
  locals : List LocalVariable
  /-- Nothing for a body whose frames have to be computed. -/
  frames : Option (List LabelledFrame)
  hints : List LabelledFrame
  nextLabel : UInt32
  deriving DecidableEq, Repr, Inhabited

namespace Code

def empty : Code := ⟨0, 0, [], [], [], none, [], 0⟩

def labelBound (insns : List Insn) : UInt32 :=
  insns.foldl (fun bound insn =>
    match insn with
    | .label l => max bound (l.number + 1)
    | _ => bound) 0

def ofInsns (insns : List Insn) : Code :=
  { empty with insns := insns, nextLabel := labelBound insns }

/-- A label that is bound nowhere yet. -/
def newLabel (c : Code) : Label × Code :=
  (⟨c.nextLabel⟩, { c with nextLabel := c.nextLabel + 1 })

/-- Marks the frames stale; they stay as hints unless there are none. -/
def markStale (c : Code) : Code :=
  match c.frames with
  | none => c
  | some [] => { c with frames := none }
  | some frames => { c with frames := none, hints := frames }

theorem insns_markStale (c : Code) : c.markStale.insns = c.insns := by
  unfold markStale
  split <;> rfl

def prepend (c : Code) (insns : List Insn) : Code :=
  { c with insns := insns ++ c.insns }.markStale

def returns (c : Code) : List Opcode :=
  c.insns.filterMap fun
    | .simple op => if op.isReturn then some op else none
    | _ => none

/-- A return instruction with the spliced sequence in front of it; any other instruction alone. -/
def spliceReturn (splice : Opcode → List Insn) (insn : Insn) : List Insn :=
  match insn with
  | .simple op => if op.isReturn then splice op ++ [insn] else [insn]
  | _ => [insn]

def spliceReturns (c : Code) (splice : Opcode → List Insn) : Code :=
  if c.returns.isEmpty then c
  else { c with insns := c.insns.flatMap (spliceReturn splice) }.markStale

def hasCallOf (c : Code) (target : MemberRef) : Bool := c.insns.any (Insn.calls target)

def executed (c : Code) : List Insn := c.insns.filter Insn.isExecuted

end Code

end ClassWeave
