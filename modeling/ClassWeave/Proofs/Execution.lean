import Mathlib.Tactic.Common
import ClassWeave.Synthesis

/-!
# Running straight-line bodies

What the instructions of an accessor do: constants, loads of arguments, products and accesses to
fields. A body runs to its first return; an instruction that does not fit the values it meets
stops it without a result.
-/

set_option autoImplicit false

namespace ClassWeave

inductive Value where
  | int (value : Int32)
  | long (value : Int64)
  | reference (object : Nat)
  deriving DecidableEq, Repr

namespace Value

def HasDesc (desc : String) : Value → Prop
  | .int _ => desc = "I"
  | .long _ => desc = "J"
  | .reference _ => False

def kindOffset : Value → UInt8
  | .int _ => 0
  | .long _ => 1
  | .reference _ => 4

def size : Value → UInt16
  | .long _ => 2
  | _ => 1

def times : Value → Option Int64 → Value
  | .int a, some factor => .int (a * factor.toInt32)
  | .long a, some factor => .long (a * factor)
  | v, _ => v

end Value

abbrev Store := Option Nat → MemberRef → Option Value

def Store.write (s : Store) (object : Option Nat) (field : MemberRef) (v : Value) : Store :=
  fun o f => if o = object ∧ f = field then some v else s o f

theorem Store.read_write (s : Store) (object : Option Nat) (field : MemberRef) (v : Value) :
    s.write object field v object field = some v :=
  if_pos ⟨rfl, rfl⟩

structure Machine where
  stack : List Value
  locals : List (UInt16 × Value)
  store : Store

namespace Machine

def push (s : Machine) (v : Value) : Machine := { s with stack := v :: s.stack }

def smallInt? (op : Opcode) : Option Int32 :=
  if Opcode.between 0x02 0x08 op then some (Int32.ofInt (op.toNat - 3)) else none

def product? (op : Opcode) : List Value → Option (List Value)
  | .int b :: .int a :: rest => if op = Opcode.imul then some (.int (a * b) :: rest) else none
  | .long b :: .long a :: rest => if op = Opcode.lmul then some (.long (a * b) :: rest) else none
  | _ => none

def stepSimple (s : Machine) (op : Opcode) : Option Machine :=
  match smallInt? op with
  | some v => some (s.push (.int v))
  | none =>
    if op = Opcode.lconst0 then some (s.push (.long 0))
    else if op = Opcode.lconst1 then some (s.push (.long 1))
    else (product? op s.stack).map fun stack => { s with stack }

def stepField (s : Machine) (op : Opcode) (f : MemberRef) : Option Machine :=
  if op = Opcode.getstatic then (s.store none f).map s.push
  else if op = Opcode.getfield then
    match s.stack with
    | .reference o :: rest => (s.store (some o) f).map { s with stack := rest }.push
    | _ => none
  else if op = Opcode.putstatic then
    match s.stack with
    | v :: rest => some { s with stack := rest, store := s.store.write none f v }
    | [] => none
  else if op = Opcode.putfield then
    match s.stack with
    | v :: .reference o :: rest =>
      some { s with stack := rest, store := s.store.write (some o) f v }
    | _ => none
  else none

def step (s : Machine) : Insn → Option Machine
  | .label _ | .line _ => some s
  | .simple op => s.stepSimple op
  | .intOp op n =>
    if op = Opcode.bipush then some (s.push (.int n.toInt8.toInt32))
    else if op = Opcode.sipush then some (s.push (.int n.toInt16.toInt32))
    else none
  | .var op slot =>
    match s.locals.lookup slot with
    | some v => if op = Opcode.iload + v.kindOffset then some (s.push v) else none
    | none => none
  | .field op f => s.stepField op f
  | .ldc (.int v) => some (s.push (.int v))
  | .ldc (.long v) => some (s.push (.long v))
  | _ => none

def leave? (s : Machine) : Insn → Option (Option Value)
  | .simple op =>
    if op = Opcode.returnVoid then some none
    else if op.isReturn then
      match s.stack with
      | v :: _ => if op = Opcode.ireturn + v.kindOffset then some (some v) else none
      | [] => none
    else none
  | _ => none

def run : List Insn → Machine → Option (Option Value × Store)
  | [], _ => none
  | insn :: rest, s =>
    match s.leave? insn with
    | some result => some (result, s.store)
    | none => (s.step insn).bind (run rest)

def arguments : List Value → UInt16 → List (UInt16 × Value)
  | [], _ => []
  | v :: rest, slot => (slot, v) :: arguments rest (slot + v.size)

def call (body : List Insn) (this : Nat) (args : List Value) (store : Store) :
    Option (Option Value × Store) :=
  run body ⟨[], arguments (.reference this :: args) 0, store⟩

variable {s s' : Machine} {insn : Insn} {rest : List Insn}

theorem run_step (stays : s.leave? insn = none) (next : s.step insn = some s') :
    run (insn :: rest) s = run rest s' := by
  rw [run, stays, next]
  rfl

theorem toInt32_toInt8 {v : Int32} (low : -128 ≤ v) (high : v ≤ 127) :
    v.toInt8.toInt32 = v := by
  rw [Int32.le_iff_toInt_le] at low high
  rw [← Int32.toInt_inj, Int8.toInt_toInt32, Int32.toInt_toInt8]
  exact Int.bmod_eq_of_le low (Int.lt_add_one_of_le high)

theorem toInt32_toInt16 {v : Int32} (low : -32768 ≤ v) (high : v ≤ 32767) :
    v.toInt16.toInt32 = v := by
  rw [Int32.le_iff_toInt_le] at low high
  rw [← Int32.toInt_inj, Int16.toInt_toInt32, Int32.toInt_toInt16]
  exact Int.bmod_eq_of_le low (Int.lt_add_one_of_le high)

theorem eq_of_small {v : Int32} (low : -1 ≤ v) (high : v ≤ 5) :
    v ∈ [-1, 0, 1, 2, 3, 4, 5] := by
  rw [Int32.le_iff_toInt_le] at low high
  have back := Int32.ofInt_toInt v
  have bound : -1 ≤ v.toInt ∧ v.toInt ≤ 5 := ⟨low, high⟩
  generalize v.toInt = n at back bound
  subst back
  have listed : n = -1 ∨ n = 0 ∨ n = 1 ∨ n = 2 ∨ n = 3 ∨ n = 4 ∨ n = 5 := by omega
  rcases listed with rfl | rfl | rfl | rfl | rfl | rfl | rfl <;> decide

theorem run_intConstant (v : Int32) (rest : List Insn) (s : Machine) :
    run (Insn.intConstant v :: rest) s = run rest (s.push (.int v)) := by
  unfold Insn.intConstant
  split
  · rename_i small
    have listed := eq_of_small small.1 small.2
    simp only [List.mem_cons, List.not_mem_nil, or_false] at listed
    rcases listed with rfl | rfl | rfl | rfl | rfl | rfl | rfl <;> exact run_step rfl rfl
  · split
    · rename_i byte
      rw [run_step rfl rfl, toInt32_toInt8 byte.1 byte.2]
    · split
      · rename_i short
        rw [run_step rfl rfl, toInt32_toInt16 short.1 short.2]
      · exact run_step rfl rfl

theorem run_longConstant (v : Int64) (rest : List Insn) (s : Machine) :
    run (Insn.longConstant v :: rest) s = run rest (s.push (.long v)) := by
  unfold Insn.longConstant
  split
  · rename_i zero
    subst zero
    exact run_step rfl rfl
  · split
    · rename_i one
      subst one
      exact run_step rfl rfl
    · exact run_step rfl rfl

end Machine

end ClassWeave
