import Mathlib.Tactic.Common
import ClassWeave.Code
import ClassWeave.Positions

/-!
# Renaming labels

A body names places by labels. Renaming all of them by one map changes nothing else.
-/

set_option autoImplicit false

namespace ClassWeave

theorem Label.toNat_ofNat {n : Nat} (h : n < 4294967296) : (Label.ofNat n).number.toNat = n :=
  UInt32.toNat_ofNat_of_lt' h

theorem Label.ofNat_inj {j k : Nat} (hj : j < 4294967296) (hk : k < 4294967296)
    (same : Label.ofNat j = Label.ofNat k) : j = k := by
  rw [← Label.toNat_ofNat hj, ← Label.toNat_ofNat hk, same]

variable (f : Label → Label)

def VType.relabel : VType → VType
  | .uninit site => .uninit (f site)
  | t => t

def Frame.relabel (frame : Frame) : Frame where
  locals := frame.locals.map (VType.relabel f)
  stack := frame.stack.map (VType.relabel f)

def Handler.relabel (h : Handler) : Handler :=
  { h with start := f h.start, finish := f h.finish, target := f h.target }

def LocalVariable.relabel (v : LocalVariable) : LocalVariable :=
  { v with start := f v.start, finish := f v.finish }

def Insn.relabel : Insn → Insn
  | .label l => .label (f l)
  | .jump op target => .jump op (f target)
  | .tableSwitch fallback low high targets =>
    .tableSwitch (f fallback) low high (targets.map f)
  | .lookupSwitch fallback pairs =>
    .lookupSwitch (f fallback) (pairs.map fun p => (p.1, f p.2))
  | insn => insn

theorem Insn.targets_relabel (insn : Insn) : (insn.relabel f).targets = insn.targets.map f := by
  cases insn <;> simp [Insn.relabel, Insn.targets]

/-- The label that a reader gives to the place of `l`. -/
def Positions.moved (positions : Positions) (l : Label) : Label :=
  Label.ofNat ((positions.find? l).getD 0)

theorem Positions.place_eq_ok {positions : Positions} {l : Label} {n : Nat} :
    positions.place l = .ok n ↔ positions.find? l = some n := by
  unfold place
  split
  · rename_i found
    rw [found]
    simp
  · rename_i missing
    rw [missing]
    simp

theorem Positions.moved_of_find? {positions : Positions} {l : Label} {n : Nat}
    (h : positions.find? l = some n) : positions.moved l = Label.ofNat n := by
  rw [moved, h]
  rfl

end ClassWeave
