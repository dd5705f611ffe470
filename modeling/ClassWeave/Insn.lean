import ClassWeave.Decimal.FloatText
import ClassWeave.Descriptor
import ClassWeave.Text.Quoted

/-!
# Symbolic instructions

Operands carry names and descriptors in place of pool indices, and branches go to labels, so a
body can be edited and moved to another class. Short and wide encodings of one instruction are the
same symbolic instruction. `Insn.label` and `Insn.line` are marks between instructions.
-/

set_option autoImplicit false

namespace ClassWeave

structure Label where
  number : UInt32
  deriving DecidableEq, Repr, Inhabited

def Label.ofNat (n : Nat) : Label := ⟨UInt32.ofNat n⟩

def Label.text (l : Label) : String := s!"L{l.number}"

structure MemberRef where
  owner : String
  name : String
  desc : String
  deriving DecidableEq, Repr, Inhabited

/-- A method handle: the kind of access, and the member it points at. -/
structure Handle where
  kind : UInt8
  member : MemberRef
  ofInterface : Bool
  deriving DecidableEq, Repr, Inhabited

def Handle.isField (h : Handle) : Bool := h.kind ≤ 4

def Handle.text (h : Handle) : String :=
  h.member.owner ++ "." ++ h.member.name ++ h.member.desc ++ s!" (kind {h.kind})"

/-- A constant that can be loaded or passed to a bootstrap method. A dynamic constant carries its
bootstrap method and the static arguments of it. -/
inductive Loadable where
  | int (value : Int32)
  | float (bits : UInt32)
  | long (value : Int64)
  | double (bits : UInt64)
  | string (value : String)
  | type (name : String)
  | methodType (desc : String)
  | handle (handle : Handle)
  | dynamic (name desc : String) (handle : Handle) (args : List Loadable)
  deriving Repr, Inhabited

structure Bootstrap where
  handle : Handle
  args : List Loadable
  deriving Repr, Inhabited

namespace Loadable

mutual

def decEq : (a b : Loadable) → Decidable (a = b)
  | .int a, .int b => decidable_of_iff (a = b) (by simp)
  | .float a, .float b => decidable_of_iff (a = b) (by simp)
  | .long a, .long b => decidable_of_iff (a = b) (by simp)
  | .double a, .double b => decidable_of_iff (a = b) (by simp)
  | .string a, .string b => decidable_of_iff (a = b) (by simp)
  | .type a, .type b => decidable_of_iff (a = b) (by simp)
  | .methodType a, .methodType b => decidable_of_iff (a = b) (by simp)
  | .handle a, .handle b => decidable_of_iff (a = b) (by simp)
  | .dynamic n d h xs, .dynamic n' d' h' ys =>
    if same : n = n' ∧ d = d' ∧ h = h' then
      match decEqList xs ys with
      | isTrue e => isTrue (by obtain ⟨rfl, rfl, rfl⟩ := same; rw [e])
      | isFalse e => isFalse (by intro all; injection all; exact e ‹_›)
    else isFalse (by
      intro all
      injection all with e₁ e₂ e₃
      exact same ⟨e₁, e₂, e₃⟩)
  | .int _, .float _ | .int _, .long _ | .int _, .double _ | .int _, .string _ | .int _, .type _
  | .int _, .methodType _ | .int _, .handle _ | .int _, .dynamic ..
  | .float _, .int _ | .float _, .long _ | .float _, .double _ | .float _, .string _
  | .float _, .type _ | .float _, .methodType _ | .float _, .handle _ | .float _, .dynamic ..
  | .long _, .int _ | .long _, .float _ | .long _, .double _ | .long _, .string _
  | .long _, .type _ | .long _, .methodType _ | .long _, .handle _ | .long _, .dynamic ..
  | .double _, .int _ | .double _, .float _ | .double _, .long _ | .double _, .string _
  | .double _, .type _ | .double _, .methodType _ | .double _, .handle _ | .double _, .dynamic ..
  | .string _, .int _ | .string _, .float _ | .string _, .long _ | .string _, .double _
  | .string _, .type _ | .string _, .methodType _ | .string _, .handle _ | .string _, .dynamic ..
  | .type _, .int _ | .type _, .float _ | .type _, .long _ | .type _, .double _
  | .type _, .string _ | .type _, .methodType _ | .type _, .handle _ | .type _, .dynamic ..
  | .methodType _, .int _ | .methodType _, .float _ | .methodType _, .long _
  | .methodType _, .double _ | .methodType _, .string _ | .methodType _, .type _
  | .methodType _, .handle _ | .methodType _, .dynamic ..
  | .handle _, .int _ | .handle _, .float _ | .handle _, .long _ | .handle _, .double _
  | .handle _, .string _ | .handle _, .type _ | .handle _, .methodType _ | .handle _, .dynamic ..
  | .dynamic .., .int _ | .dynamic .., .float _ | .dynamic .., .long _ | .dynamic .., .double _
  | .dynamic .., .string _ | .dynamic .., .type _ | .dynamic .., .methodType _
  | .dynamic .., .handle _ => isFalse (by intro h; cases h)

def decEqList : (xs ys : List Loadable) → Decidable (xs = ys)
  | [], [] => isTrue rfl
  | [], _ :: _ => isFalse (by intro h; cases h)
  | _ :: _, [] => isFalse (by intro h; cases h)
  | x :: xs, y :: ys =>
    match decEq x y with
    | isTrue e =>
      match decEqList xs ys with
      | isTrue es => isTrue (by rw [e, es])
      | isFalse es => isFalse (by intro h; injection h; exact es ‹_›)
    | isFalse e => isFalse (by intro h; injection h; exact e ‹_›)

end

instance : DecidableEq Loadable := decEq

mutual

/-- Every method handle in the constant, bootstrap methods and their arguments included. -/
def handles : Loadable → List Handle
  | .handle h => [h]
  | .dynamic _ _ h args => h :: handlesOf args
  | _ => []

def handlesOf : List Loadable → List Handle
  | [] => []
  | x :: xs => handles x ++ handlesOf xs

end

/-- Constants that take two slots. A dynamic constant has the size of its descriptor. -/
def isWide : Loadable → Bool
  | .long _ | .double _ => true
  | .dynamic _ desc _ _ => desc == "J" || desc == "D"
  | _ => false

def text : Loadable → String
  | .int v => s!"{v}"
  | .float bits => Decimal.single.text bits.toNat ++ "f"
  | .long v => s!"{v}L"
  | .double bits => Decimal.double.text bits.toNat ++ "d"
  | .string s => Quoted.encode s
  | .type name => name ++ ".class"
  | .methodType desc => "type " ++ desc
  | .handle h => "handle " ++ h.text
  | .dynamic name desc h _ => "dynamic " ++ name ++ " " ++ desc ++ " via " ++ h.text

end Loadable

instance : DecidableEq Bootstrap := fun a b =>
  decidable_of_iff (a.handle = b.handle ∧ a.args = b.args) (by
    cases a
    cases b
    simp)

def Bootstrap.handles (b : Bootstrap) : List Handle := b.handle :: Loadable.handlesOf b.args

inductive Insn where
  | label (label : Label)
  | line (number : UInt16)
  | simple (op : Opcode)
  /-- Small constants and the element type of `newarray`. -/
  | intOp (op : Opcode) (operand : Int32)
  | var (op : Opcode) (slot : UInt16)
  | iinc (slot : UInt16) (delta : Int16)
  /-- `new`, `anewarray`, `checkcast` and `instanceof`. -/
  | typeOp (op : Opcode) (name : String)
  | field (op : Opcode) (member : MemberRef)
  | method (op : Opcode) (member : MemberRef) (ofInterface : Bool)
  | callSite (name desc : String) (bootstrap : Bootstrap)
  | ldc (value : Loadable)
  | jump (op : Opcode) (target : Label)
  | tableSwitch (fallback : Label) (low high : Int32) (targets : List Label)
  | lookupSwitch (fallback : Label) (pairs : List (Int32 × Label))
  | newArrays (name : String) (dims : UInt8)
  deriving DecidableEq, Repr, Inhabited

namespace Insn

def intConstant (v : Int32) : Insn :=
  if -1 ≤ v ∧ v ≤ 5 then .simple (Opcode.iconst0 + UInt8.ofInt v.toInt)
  else if -128 ≤ v ∧ v ≤ 127 then .intOp Opcode.bipush v
  else if -32768 ≤ v ∧ v ≤ 32767 then .intOp Opcode.sipush v
  else .ldc (.int v)

def longConstant (v : Int64) : Insn :=
  if v = 0 then .simple Opcode.lconst0
  else if v = 1 then .simple Opcode.lconst1
  else .ldc (.long v)

def isExecuted : Insn → Bool
  | .label _ | .line _ => false
  | _ => true

def opcode? : Insn → Option Opcode
  | .label _ | .line _ => none
  | .simple op | .intOp op _ | .var op _ | .typeOp op _ | .field op _ | .method op _ _
  | .jump op _ => some op
  | .iinc _ _ => some Opcode.iinc
  | .callSite _ _ _ => some Opcode.invokedynamic
  | .ldc value => some (if value.isWide then Opcode.ldc2W else Opcode.ldc)
  | .tableSwitch _ _ _ _ => some Opcode.tableswitch
  | .lookupSwitch _ _ => some Opcode.lookupswitch
  | .newArrays _ _ => some Opcode.multianewarray

def handles : Insn → List Handle
  | .callSite _ _ b => b.handles
  | .ldc value => value.handles
  | _ => []

def calls (target : MemberRef) : Insn → Bool
  | .method _ member _ => member == target
  | _ => false

def targets : Insn → List Label
  | .jump _ target => [target]
  | .tableSwitch fallback _ _ targets => fallback :: targets
  | .lookupSwitch fallback pairs => fallback :: pairs.map Prod.snd
  | _ => []

def text : Insn → String
  | .label l => l.text ++ ":"
  | .line n => s!"// line {n}"
  | .simple op => op.mnemonic
  | .intOp op operand => op.mnemonic ++ s!" {operand}"
  | .var op slot => op.mnemonic ++ s!" {slot}"
  | .iinc slot delta => s!"iinc {slot} {delta}"
  | .typeOp op name => op.mnemonic ++ " " ++ name
  | .field op m => op.mnemonic ++ " " ++ m.owner ++ "." ++ m.name ++ " " ++ m.desc
  | .method op m _ => op.mnemonic ++ " " ++ m.owner ++ "." ++ m.name ++ m.desc
  | .callSite name desc b => "invokedynamic " ++ name ++ desc ++ " via " ++ b.handle.text
  | .ldc value => (if value.isWide then "ldc2_w " else "ldc ") ++ value.text
  | .jump op target => op.mnemonic ++ " " ++ target.text
  | .tableSwitch fallback low high targets =>
    s!"tableswitch {low}..{high} [" ++ ", ".intercalate (targets.map Label.text) ++
      "] default " ++ fallback.text
  | .lookupSwitch fallback pairs =>
    "lookupswitch [" ++ ", ".intercalate (pairs.map fun p => s!"{p.1}: " ++ p.2.text) ++
      "] default " ++ fallback.text
  | .newArrays name dims => "multianewarray " ++ name ++ s!" {dims}"

end Insn

end ClassWeave
