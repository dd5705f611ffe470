import Mathlib.Tactic.Common
import ClassWeave.Analysis.Flow
import ClassWeave.Proofs.Sequences

/-!
# Locals keep their number

An instruction leaves the locals, stores a value, or turns a fresh object into an initialised one.
Only stores change how many locals a state has, and only those that reach past the last one. The
locals of a body are enough for every store that pops a value as wide as it is meant for.
-/

set_option autoImplicit false

namespace ClassWeave

namespace Opcode

def isStore (op : Opcode) : Bool := between istore astore op

def isWideStore (op : Opcode) : Bool := op == lstore || op == dstore

end Opcode

def Insn.Inside (insn : Insn) (s : State) : Prop :=
  match insn with
  | .var op slot => op.isStore = true → ∀ value rest, s.stack = value :: rest →
      slot.toNat + value.slots ≤ s.locals.length
  | .iinc slot _ => slot.toNat + 1 ≤ s.locals.length
  | _ => True

namespace State

def grown (s : State) (slot : Nat) (v : VType) : List VType :=
  s.locals ++ List.replicate (slot + v.slots - s.locals.length) .top

theorem length_grown (s : State) (slot : Nat) (v : VType) :
    (s.grown slot v).length = max s.locals.length (slot + v.slots) := by
  rw [grown, List.length_append, List.length_replicate]
  omega

end State

def spoil (locals : List VType) : Nat → List VType
  | 0 => locals
  | before + 1 =>
    if (locals[before]?.map VType.isWide).getD false then locals.set before .top else locals

theorem length_spoil (locals : List VType) (slot : Nat) :
    (spoil locals slot).length = locals.length := by
  cases slot with
  | zero => rfl
  | succ before =>
    rw [spoil]
    split
    · exact List.length_set
    · rfl

theorem locals_store_eq (s : State) (slot : Nat) (value : VType) :
    (s.store slot value).locals = if value.isWide
      then ((spoil (s.grown slot value) slot).set slot value).set (slot + 1) .top
      else (spoil (s.grown slot value) slot).set slot value := by
  cases slot <;> rfl

theorem length_locals_store_eq (s : State) (slot : Nat) (value : VType) :
    (s.store slot value).locals.length = max s.locals.length (slot + value.slots) := by
  rw [locals_store_eq, ← State.length_grown, ← length_spoil (s.grown slot value) slot]
  split
  · rw [List.length_set, List.length_set]
  · rw [List.length_set]

theorem length_locals_store {s : State} {slot : Nat} {value : VType}
    (inside : slot + value.slots ≤ s.locals.length) :
    (s.store slot value).locals.length = s.locals.length := by
  rw [length_locals_store_eq, Nat.max_eq_left inside]

def VType.isFresh : VType → Bool
  | .uninitThis | .uninit _ => true
  | _ => false

/-- What an instruction can do to the locals: leave them, store the top of the stack or an int, or
turn the copies of a fresh object into initialised ones. -/
inductive Insn.Rewrites (insn : Insn) (s : State) : List VType → Prop where
  | kept : Rewrites insn s s.locals
  | stored {op : Opcode} {slot : UInt16} {value : VType} {rest : List VType}
      (same : insn = .var op slot) (store : op.isStore = true) (top : s.stack = value :: rest) :
      Rewrites insn s (s.store slot.toNat value).locals
  | counted {slot : UInt16} {delta : Int16} (same : insn = .iinc slot delta) :
      Rewrites insn s (s.store slot.toNat .int).locals
  | initialised {fresh : VType} (isFresh : fresh.isFresh = true) (ready : String) :
      Rewrites insn s (MethodSite.initialise fresh ready s).locals

theorem Insn.Rewrites.length_eq {insn : Insn} {s : State} {locals : List VType}
    (rewrites : insn.Rewrites s locals) (inside : insn.Inside s) :
    locals.length = s.locals.length := by
  cases rewrites with
  | kept => rfl
  | stored same store top =>
    subst same
    exact length_locals_store (inside store _ _ top)
  | counted same =>
    subst same
    exact length_locals_store inside
  | initialised isFresh ready => exact List.length_map ..

namespace MethodSite

variable {m : MethodSite} {index : Nat} {s after : State}

theorem locals_replaceTop {n : Nat} {pushes : List VType}
    (run : m.replaceTop index n pushes s = .ok after) : after.locals = s.locals := by
  unfold replaceTop at run
  split at run
  · cases run
  · cases run
    rfl

theorem locals_initialise {fresh : VType} {ready : String} {t : State}
    (same : t.locals = s.locals) :
    (initialise fresh ready t).locals = (initialise fresh ready s).locals :=
  congrArg (List.map _) same

theorem locals_pushResult {d : MethodDescriptor} {t : State}
    (run : (match d.result with
      | none => pure t
      | some r => pure { t with stack := VType.ofFieldType r :: t.stack } :
        Except WriteError State) = .ok after) : after.locals = t.locals := by
  cases result : d.result with
  | none =>
    rw [result] at run
    cases run
    rfl
  | some r =>
    rw [result] at run
    cases run
    rfl

theorem locals_call {desc : String} {receiver : Option MemberRef}
    (run : m.call index desc receiver s = .ok after) : after.locals = s.locals ∨
      ∃ fresh ready, fresh.isFresh = true ∧ after.locals = (initialise fresh ready s).locals := by
  obtain ⟨d, _, run⟩ := bind_ok_iff.1 run
  obtain ⟨popped, arguments, run⟩ := bind_ok_iff.1 run
  have locals := locals_replaceTop arguments
  dsimp only at run
  split at run
  · exact .inl ((locals_pushResult run).trans locals)
  · split at run
    · cases run
    · split at run
      · exact .inl ((locals_pushResult run).trans locals)
      · refine .inr ?_
        split at run
        · exact ⟨.uninitThis, _, rfl, (locals_pushResult run).trans (locals_initialise locals)⟩
        · exact ⟨.uninit _, _, rfl, (locals_pushResult run).trans (locals_initialise locals)⟩
        · cases run

theorem locals_simple {op : Opcode} (run : m.simple index op s = .ok after) :
    after.locals = s.locals := by
  unfold simple at run
  split at run
  · cases run
  · exact locals_replaceTop run
  · split at run
    · obtain ⟨element, _, run⟩ := bind_ok_iff.1 run
      cases run
      rfl
    · cases run
  · split at run
    · cases run
      rfl
    · cases run

theorem locals_varOp {op : Opcode} {slot : Nat} (run : m.varOp index op slot s = .ok after) :
    after.locals = s.locals ∨ op.isStore = true ∧ ∃ value rest, s.stack = value :: rest ∧
      after.locals = (s.store slot value).locals := by
  unfold varOp at run
  iterate 5
    split at run
    · exact .inl (locals_replaceTop run)
  split at run
  · rename_i store
    split at run
    · rename_i value rest top
      cases run
      exact .inr ⟨store, value, rest, top, rfl⟩
    · cases run
  · cases run

theorem locals_typeOp {op : Opcode} {name : String} {site : Option Label}
    (run : m.typeOp index op name site s = .ok after) : after.locals = s.locals := by
  unfold typeOp at run
  split at run
  · split at run
    · exact locals_replaceTop run
    · cases run
  · repeat' split at run
    all_goals exact locals_replaceTop run

theorem locals_field {op : Opcode} {desc : String} (run : m.field index op desc s = .ok after) :
    after.locals = s.locals := by
  obtain ⟨t, _, run⟩ := bind_ok_iff.1 run
  dsimp only at run
  repeat' split at run
  all_goals exact locals_replaceTop run

theorem rewrites_execute {site : Option Label} {insn : Insn}
    (run : m.execute index site insn s = .ok after) : insn.Rewrites s after.locals := by
  have kept (same : after.locals = s.locals) : insn.Rewrites s after.locals := same ▸ .kept
  have called {desc : String} {receiver : Option MemberRef}
      (run : m.call index desc receiver s = .ok after) : insn.Rewrites s after.locals := by
    rcases locals_call run with same | ⟨fresh, ready, isFresh, same⟩
    · exact kept same
    · exact same ▸ .initialised isFresh ready
  cases insn with
  | label x | line n =>
    cases run
    exact .kept
  | simple op => exact kept (locals_simple run)
  | intOp op v =>
    dsimp only [execute] at run
    split at run
    · obtain ⟨t, popped, run⟩ := bind_ok_iff.1 run
      have same := locals_replaceTop popped
      split at run
      · cases run
        exact kept same
      · cases run
    · exact kept (locals_replaceTop run)
  | var op slot =>
    rcases locals_varOp run with same | ⟨store, value, rest, top, same⟩
    · exact kept same
    · exact same ▸ .stored rfl store top
  | iinc slot delta =>
    cases run
    exact .counted rfl
  | typeOp op name => exact kept (locals_typeOp run)
  | field op member => exact kept (locals_field run)
  | method op member ofInterface =>
    dsimp only [execute] at run
    exact called run
  | callSite name desc b =>
    dsimp only [execute] at run
    exact called run
  | ldc value =>
    obtain ⟨t, _, run⟩ := bind_ok_iff.1 run
    exact kept (locals_replaceTop run)
  | jump op x =>
    dsimp only [execute] at run
    split at run
    · cases run
      exact .kept
    · split at run
      · cases run
      · split at run
        · exact kept (locals_replaceTop run)
        · exact kept (locals_replaceTop run)
  | tableSwitch fallback low high targets => exact kept (locals_replaceTop run)
  | lookupSwitch fallback pairs => exact kept (locals_replaceTop run)
  | newArrays name dims => exact kept (locals_replaceTop run)

theorem length_locals_execute {site : Option Label} {insn : Insn} (inside : insn.Inside s)
    (run : m.execute index site insn s = .ok after) : after.locals.length = s.locals.length :=
  (rewrites_execute run).length_eq inside

end MethodSite

def Insn.room : Insn → Nat
  | .var op slot => slot.toNat +
      if [Opcode.lload, Opcode.dload, Opcode.lstore, Opcode.dstore].contains op then 2 else 1
  | .iinc slot _ => slot.toNat + 1
  | _ => 0

theorem localsNeeded_eq (c : Code) (params : Nat) :
    localsNeeded c params = c.insns.foldl (fun most insn => max most insn.room) params := by
  unfold localsNeeded
  congr 1
  funext most insn
  cases insn <;> simp [Insn.room]

theorem le_foldl_max {α : Type} (width : α → Nat) (l : List α) (most : Nat) :
    most ≤ l.foldl (fun most a => max most (width a)) most ∧
      ∀ a ∈ l, width a ≤ l.foldl (fun most a => max most (width a)) most := by
  induction l generalizing most with
  | nil => exact ⟨Nat.le_refl most, fun _ mem => nomatch mem⟩
  | cons first rest ih =>
    obtain ⟨start, each⟩ := ih (max most (width first))
    refine ⟨Nat.le_trans (Nat.le_max_left ..) start, fun a mem => ?_⟩
    rcases List.mem_cons.1 mem with rfl | mem
    · exact Nat.le_trans (Nat.le_max_right ..) start
    · exact each a mem

theorem room_le_localsNeeded {c : Code} {insn : Insn} (mem : insn ∈ c.insns) (params : Nat) :
    insn.room ≤ localsNeeded c params := by
  rw [localsNeeded_eq]
  exact (le_foldl_max Insn.room c.insns params).2 insn mem

theorem Insn.inside_of_room {insn : Insn} {s : State} (room : insn.room ≤ s.locals.length)
    (width : ∀ op slot value rest, insn = .var op slot → op.isStore = true →
      s.stack = value :: rest → value.isWide = op.isWideStore) : insn.Inside s := by
  cases insn with
  | var op slot =>
    intro store value rest top
    have wide := width op slot value rest rfl store top
    refine Nat.le_trans (Nat.add_le_add_left ?_ _) room
    rw [VType.slots, wide]
    by_cases two : op.isWideStore = true
    · rw [if_pos two]
      simp only [Opcode.isWideStore, Bool.or_eq_true, beq_iff_eq] at two
      rcases two with rfl | rfl
      · exact Nat.le_refl 2
      · exact Nat.le_refl 2
    · rw [if_neg two]
      split
      · decide
      · exact Nat.le_refl 1
  | iinc slot delta => exact room
  | _ => trivial

theorem le_length_expandLocals (types : List VType) (maxLocals : Nat) :
    maxLocals ≤ (expandLocals types maxLocals).length := by
  rw [expandLocals, List.length_append, List.length_replicate]
  omega

end ClassWeave
