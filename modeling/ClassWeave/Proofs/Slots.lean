import Mathlib.Tactic.Common
import ClassWeave.Proofs.Analysis.Locals
import ClassWeave.Synthesis

/-!
# Slots of parameters and the spare slot

Slots are counted in 16 bits. As long as they fit, the parameters lie one behind the other, and the
spare slot lies behind them, behind every slot that an instruction of the body names, and behind the
first slot of every local variable.
-/

set_option autoImplicit false

namespace ClassWeave.Edit

open Synthesis

def slotCount (params : List FieldType) : Nat := params.foldr (fun t rest => t.size.toNat + rest) 0

theorem slotCount_cons (t : FieldType) (params : List FieldType) :
    slotCount (t :: params) = t.size.toNat + slotCount params := rfl

theorem slotCount_take (params : List FieldType) (k : Nat) :
    slotCount (params.take k) ≤ slotCount params := by
  induction params generalizing k with
  | nil => simp
  | cons t rest ih =>
    cases k with
    | zero => exact Nat.zero_le _
    | succ k => simp only [List.take_succ_cons, slotCount_cons, Nat.add_le_add_left (ih k)]

theorem toNat_add_size {slot : UInt16} {t : FieldType} {params : List FieldType}
    (small : slot.toNat + slotCount (t :: params) < 65536) :
    (slot + t.size).toNat = slot.toNat + t.size.toNat := by
  rw [slotCount_cons] at small
  rw [UInt16.toNat_add]
  omega

theorem toNat_foldl_size (params : List FieldType) (base : UInt16)
    (small : base.toNat + slotCount params < 65536) :
    (params.foldl (fun size t => size + t.size) base).toNat = base.toNat + slotCount params := by
  induction params generalizing base with
  | nil => rfl
  | cons t rest ih =>
    have sum := toNat_add_size small
    rw [slotCount_cons] at small ⊢
    rw [List.foldl_cons, ih (base + t.size) (by omega), sum]
    omega

theorem toNat_paramSlots {d : MethodDescriptor} (small : slotCount d.params < 65536) :
    d.paramSlots.toNat = slotCount d.params := by
  have sum := toNat_foldl_size d.params 0 (by simpa using small)
  simpa [MethodDescriptor.paramSlots] using sum

def firstSlot (isStatic : Bool) : Nat := if isStatic then 0 else 1

theorem toNat_firstSlot (isStatic : Bool) :
    (if isStatic then (0 : UInt16) else 1).toNat = firstSlot isStatic := by
  cases isStatic <;> rfl

theorem le_max_slot (a b : UInt16) : a ≤ max a b := by
  change a ≤ if a ≤ b then b else a
  split
  · assumption
  · exact UInt16.le_refl a

theorem le_max_slot_right (a b : UInt16) : b ≤ max a b := by
  change b ≤ if a ≤ b then b else a
  split
  · exact UInt16.le_refl b
  · rename_i above
    exact (UInt16.le_total a b).resolve_left above

theorem le_foldl_max_slot (used : List UInt16) (most : UInt16) : most ≤ used.foldl max most ∧
    ∀ slot ∈ used, slot ≤ used.foldl max most := by
  induction used generalizing most with
  | nil => exact ⟨UInt16.le_refl most, fun _ mem => nomatch mem⟩
  | cons first rest ih =>
    obtain ⟨start, each⟩ := ih (max most first)
    refine ⟨UInt16.le_trans (le_max_slot most first) start, fun slot mem => ?_⟩
    rcases List.mem_cons.1 mem with rfl | mem
    · exact UInt16.le_trans (le_max_slot_right most slot) start
    · exact each slot mem

theorem le_spareSlot (code : Code) (params : UInt16) : params ≤ spareSlot code params :=
  UInt16.le_trans (le_max_slot params code.maxLocals) (le_foldl_max_slot _ _).1

theorem params_le_spareSlot (code : Code) {d : MethodDescriptor} {isStatic : Bool}
    (small : firstSlot isStatic + slotCount d.params < 65536) :
    firstSlot isStatic + slotCount d.params ≤
      (spareSlot code (d.paramSlots + if isStatic then 0 else 1)).toNat := by
  have behind := le_spareSlot code (d.paramSlots + if isStatic then 0 else 1)
  rw [UInt16.le_iff_toNat_le, UInt16.toNat_add, toNat_firstSlot,
    toNat_paramSlots (by omega)] at behind
  omega

theorem toNat_slotAfter {insn : Insn} {behind : UInt16} (after : slotAfter insn = some behind)
    (fits : insn.room < 65536) : behind.toNat = insn.room := by
  cases insn with
  | var op slot =>
    cases after
    have width (wide : Bool) :
        (if wide then (2 : UInt16) else 1).toNat = if wide then 2 else 1 := by
      cases wide <;> rfl
    rw [Insn.room] at fits ⊢
    rw [UInt16.toNat_add, width]
    exact Nat.mod_eq_of_lt fits
  | iinc slot delta =>
    cases after
    rw [Insn.room] at fits ⊢
    rw [UInt16.toNat_add]
    exact Nat.mod_eq_of_lt fits
  | _ => cases after

theorem room_le_spareSlot {code : Code} {insn : Insn} (mem : insn ∈ code.insns)
    (fits : insn.room < 65536) (params : UInt16) :
    insn.room ≤ (spareSlot code params).toNat := by
  cases after : slotAfter insn with
  | none =>
    have nothing : insn.room = 0 := by
      cases insn <;> first | rfl | cases after
    rw [nothing]
    exact Nat.zero_le _
  | some behind =>
    rw [← toNat_slotAfter after fits, ← UInt16.le_iff_toNat_le]
    refine (le_foldl_max_slot _ _).2 behind (List.mem_append_left _ ?_)
    exact List.mem_filterMap.2 ⟨insn, mem, after⟩

theorem slot_lt_spareSlot {code : Code} {v : LocalVariable} (mem : v ∈ code.locals)
    (fits : v.slot.toNat + 1 < 65536) (params : UInt16) :
    v.slot.toNat < (spareSlot code params).toNat := by
  have behind : (v.slot + 1).toNat = v.slot.toNat + 1 := by
    rw [UInt16.toNat_add]
    exact Nat.mod_eq_of_lt fits
  have above : v.slot + 1 ≤ spareSlot code params :=
    (le_foldl_max_slot _ _).2 _ (List.mem_append_right _ (List.mem_map_of_mem mem))
  rw [UInt16.le_iff_toNat_le, behind] at above
  exact above

end ClassWeave.Edit
