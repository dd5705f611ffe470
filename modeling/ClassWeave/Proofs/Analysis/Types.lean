import Mathlib.Tactic.Common
import ClassWeave.Analysis.Effect
import ClassWeave.Proofs.Analysis.Locals
import ClassWeave.Proofs.Sequences

/-!
# Where the types of a state come from

An instruction leaves types that were there, elements of arrays that were there, types without a
name, and those that it brings in. So what holds of all these holds of every type in a run.
-/

set_option autoImplicit false

namespace ClassWeave

def VType.isPlain : VType → Bool
  | .object _ | .uninit _ => false
  | _ => true

variable {P : VType → Prop}

theorem VType.ofFieldType_cases (t : FieldType) :
    (VType.ofFieldType t).isPlain = true ∨
      t.isReference = true ∧ VType.ofFieldType t = .object t.internalName := by
  cases t with
  | object name | array element => exact .inr ⟨rfl, rfl⟩
  | _ => exact .inl rfl

structure State.Each (P : VType → Prop) (s : State) : Prop where
  locals : ∀ t ∈ s.locals, P t
  stack : ∀ t ∈ s.stack, P t

namespace State

variable {s : State}

theorem each_iff_entries : s.Each P ↔ ∀ t ∈ s.entries, P t := by
  constructor
  · intro each t mem
    rcases List.mem_append.1 mem with mem | mem
    · exact each.locals t mem
    · exact each.stack t (List.mem_reverse.1 mem)
  · intro each
    exact ⟨fun t mem => each t (List.mem_append_left _ mem),
      fun t mem => each t (List.mem_append_right _ (List.mem_reverse.2 mem))⟩

theorem Each.restack (h : s.Each P) {stack : List VType} (old : ∀ t ∈ stack, t ∈ s.stack) :
    ({ s with stack := stack } : State).Each P :=
  ⟨h.locals, fun t mem => h.stack t (old t mem)⟩

theorem Each.push (h : s.Each P) {t : VType} (new : P t) {stack : List VType}
    (old : ∀ t ∈ stack, t ∈ s.stack) : ({ s with stack := t :: stack } : State).Each P :=
  ⟨h.locals, List.forall_mem_cons.2 ⟨new, fun t mem => h.stack t (old t mem)⟩⟩

theorem each_set {types : List VType} (each : ∀ t ∈ types, P t) {new : VType} (has : P new)
    (i : Nat) : ∀ t ∈ types.set i new, P t := by
  intro t mem
  rcases List.mem_or_eq_of_mem_set mem with mem | rfl
  · exact each t mem
  · exact has

theorem each_spoil {types : List VType} (each : ∀ t ∈ types, P t) (top : P .top) (slot : Nat) :
    ∀ t ∈ spoil types slot, P t := by
  cases slot with
  | zero => exact each
  | succ before =>
    rw [spoil]
    split
    · exact each_set each top before
    · exact each

theorem Each.store (h : s.Each P) (top : P .top) {value : VType} (has : P value) (slot : Nat) :
    (s.store slot value).Each P := by
  have filled : ∀ t ∈ s.grown slot value, P t := by
    intro t mem
    rcases List.mem_append.1 mem with mem | mem
    · exact h.locals t mem
    · rw [List.eq_of_mem_replicate mem]
      exact top
  have stored := each_set (each_spoil filled top slot) has slot
  refine ⟨?_, h.stack⟩
  rw [locals_store_eq]
  split
  · exact each_set stored top _
  · exact stored

end State

namespace StackMove

structure Keeps (move : List VType → Option (List VType)) : Prop where
  mem : ∀ stack moved, move stack = some moved → ∀ t ∈ moved, t ∈ stack
  length : ∀ stack moved, move stack = some moved → moved.length ≤ stack.length + 2

theorem keeps_moves : Keeps pop2 ∧ Keeps dup ∧ Keeps dupX1 ∧ Keeps dupX2 ∧ Keeps dup2 ∧
    Keeps dup2X1 ∧ Keeps dup2X2 ∧ Keeps swap := by
  refine ⟨?_, ?_, ?_, ?_, ?_, ?_, ?_, ?_⟩
  all_goals
    constructor
    all_goals
      intro stack moved h
      simp only [pop2, dup, dupX1, dupX2, dup2, dup2X1, dup2X2, swap] at h
      repeat' split at h
      all_goals cases h
    all_goals
      simp only [List.mem_cons, List.length_cons]
      first | omega | tauto

end StackMove

def SimpleEffect.Tame : SimpleEffect → Prop
  | .replace _ pushes => pushes.length ≤ 1 ∧ ∀ t ∈ pushes, t.isPlain = true
  | .loadElement => True
  | .rearrange move => StackMove.Keeps move

theorem tame_simpleEffects : ∀ e ∈ simpleEffects, e.2.2.Tame := by
  obtain ⟨pop2, dup, dupX1, dupX2, dup2, dup2X1, dup2X2, swap⟩ := StackMove.keeps_moves
  simp [simpleEffects, SimpleEffect.Tame, VType.isPlain, *]

theorem tame_simpleEffect? {op : Opcode} {e : SimpleEffect} (found : simpleEffect? op = some e) :
    e.Tame := by
  obtain ⟨entry, known, rfl⟩ := Option.map_eq_some_iff.1 found
  exact tame_simpleEffects entry (List.mem_of_find?_eq_some known)

theorem orMalformed_eq_ok {α : Type} {x : Except FormatError α} {a : α} :
    orMalformed x = .ok a ↔ x = .ok a := by
  cases x <;> simp [orMalformed, Except.mapError]

namespace MethodSite

variable {m : MethodSite} {index : Nat} {s after : State}

theorem each_replaceTop (h : s.Each P) {n : Nat} {pushes : List VType}
    (pushed : ∀ t ∈ pushes, P t) (run : m.replaceTop index n pushes s = .ok after) :
    after.Each P := by
  unfold replaceTop at run
  split at run
  · cases run
  · cases run
    refine ⟨h.locals, fun t mem => ?_⟩
    rcases List.mem_append.1 mem with mem | mem
    · exact pushed t mem
    · exact h.stack t (List.mem_of_mem_drop mem)

theorem each_pop (h : s.Each P) {n : Nat} (run : m.replaceTop index n [] s = .ok after) :
    after.Each P :=
  each_replaceTop h (by nofun) run

theorem each_replaceOne (h : s.Each P) {n : Nat} {t : VType} (pushed : P t)
    (run : m.replaceTop index n [t] s = .ok after) : after.Each P :=
  each_replaceTop h (fun u mem => by rwa [List.mem_singleton.1 mem]) run

theorem each_initialise (h : s.Each P) (fresh : VType) {ready : String} (has : P (.object ready)) :
    (initialise fresh ready s).Each P := by
  have settled (types : List VType) (each : ∀ t ∈ types, P t) :
      ∀ t ∈ types.map fun t => if t = fresh then VType.object ready else t, P t := by
    intro t mem
    obtain ⟨u, old, rfl⟩ := List.mem_map.1 mem
    split
    · exact has
    · exact each u old
  exact ⟨settled _ h.locals, settled _ h.stack⟩

theorem mem_returned {desc : String} {d : MethodDescriptor} {r : FieldType}
    (parsed : MethodDescriptor.parse desc = .ok d) (result : d.result = some r) :
    VType.ofFieldType r ∈ brings.returned desc := by
  simp [brings.returned, parsed, Except.toOption, result]

theorem each_pushResult (h : s.Each P) {d : MethodDescriptor}
    (returned : ∀ r, d.result = some r → P (.ofFieldType r))
    (run : (match d.result with
      | none => pure s
      | some r => pure { s with stack := VType.ofFieldType r :: s.stack } :
        Except WriteError State) = .ok after) : after.Each P := by
  cases result : d.result with
  | none =>
    rw [result] at run
    cases run
    exact h
  | some r =>
    rw [result] at run
    cases run
    exact h.push (returned r result) fun _ mem => mem

theorem each_call (h : s.Each P) {desc : String} {receiver : Option MemberRef}
    (ready : ∀ target, receiver = some target → P (.object m.owner) ∧ P (.object target.owner))
    (returned : ∀ t ∈ brings.returned desc, P t)
    (run : m.call index desc receiver s = .ok after) : after.Each P := by
  obtain ⟨d, parsed, run⟩ := bind_ok_iff.1 run
  have result (r : FieldType) (found : d.result = some r) : P (.ofFieldType r) :=
    returned _ (mem_returned (orMalformed_eq_ok.1 parsed) found)
  obtain ⟨popped, arguments, run⟩ := bind_ok_iff.1 run
  replace h := each_pop h arguments
  dsimp only at run
  split at run
  · exact each_pushResult h result run
  · obtain ⟨own, other⟩ := ready _ rfl
    split at run
    · cases run
    · rename_i value rest top
      have below : ({ popped with stack := rest } : State).Each P :=
        h.restack fun t mem => top ▸ List.mem_cons_of_mem value mem
      split at run
      · exact each_pushResult below result run
      · split at run
        · exact each_pushResult (each_initialise below _ own) result run
        · exact each_pushResult (each_initialise below _ other) result run
        · cases run

theorem each_simple (h : s.Each P) (plain : ∀ t : VType, t.isPlain = true → P t)
    (element : ∀ array t, P array → elementType array = .ok t → P t) {op : Opcode}
    (run : m.simple index op s = .ok after) : after.Each P := by
  unfold simple at run
  split at run
  · cases run
  · rename_i found
    exact each_replaceTop h (fun t mem => plain t ((tame_simpleEffect? found).2 t mem)) run
  · split at run
    · rename_i top
      obtain ⟨t, loaded, run⟩ := bind_ok_iff.1 run
      cases run
      have array := h.stack _ (top ▸ List.mem_cons_of_mem _ (List.mem_cons_self ..))
      exact h.push (element _ t array loaded) fun t mem =>
        top ▸ List.mem_cons_of_mem _ (List.mem_cons_of_mem _ mem)
    · cases run
  · rename_i found
    split at run
    · rename_i moved
      cases run
      exact h.restack ((tame_simpleEffect? found).mem _ _ moved)
    · cases run

theorem each_varOp (h : s.Each P) (plain : ∀ t : VType, t.isPlain = true → P t) {op : Opcode}
    {slot : Nat} (run : m.varOp index op slot s = .ok after) : after.Each P := by
  have loaded : P ((s.locals[slot]?).getD .top) := by
    cases known : s.locals[slot]? with
    | none => exact plain .top rfl
    | some t => exact h.locals t (List.mem_of_getElem? known)
  unfold varOp at run
  iterate 4
    split at run
    · exact each_replaceOne h (plain _ rfl) run
  split at run
  · exact each_replaceOne h loaded run
  · split at run
    · split at run
      · rename_i value rest top
        cases run
        have below : ({ s with stack := rest } : State).Each P :=
          h.restack fun t mem => top ▸ List.mem_cons_of_mem value mem
        exact below.store (plain .top rfl) (h.stack value (top ▸ List.mem_cons_self ..)) slot
      · cases run
    · cases run

theorem each_typeOp (h : s.Each P) (plain : ∀ t : VType, t.isPlain = true → P t) {op : Opcode}
    {name : String} {site : Option Label} (fresh : ∀ l, site = some l → P (.uninit l))
    (named : P (.object name)) (array : P (.object (arrayOf name)))
    (run : m.typeOp index op name site s = .ok after) : after.Each P := by
  unfold typeOp at run
  split at run
  · split at run
    · exact each_replaceOne h (fresh _ rfl) run
    · cases run
  · repeat' split at run
    · exact each_replaceOne h array run
    · exact each_replaceOne h named run
    · exact each_replaceOne h (plain .int rfl) run

theorem each_field (h : s.Each P) {op : Opcode} {desc : String}
    (brought : ∀ t, FieldType.parse desc = .ok t → P (.ofFieldType t))
    (run : m.field index op desc s = .ok after) : after.Each P := by
  obtain ⟨t, parsed, run⟩ := bind_ok_iff.1 run
  have has := brought t (orMalformed_eq_ok.1 parsed)
  dsimp only at run
  repeat' split at run
  · exact each_replaceOne h has run
  · exact each_pop h run
  · exact each_replaceOne h has run
  · exact each_pop h run

/-- What holds of the types of a state, of the elements of its arrays, of plain types, of the
fresh object and of what the instruction brings in holds of the types behind it. -/
theorem each_execute (h : s.Each P) (plain : ∀ t : VType, t.isPlain = true → P t)
    (element : ∀ array t, P array → elementType array = .ok t → P t) {site : Option Label}
    (fresh : ∀ l, site = some l → P (.uninit l)) {insn : Insn}
    (brought : ∀ t ∈ m.brings insn, P t) (run : m.execute index site insn s = .ok after) :
    after.Each P := by
  cases insn with
  | label x | line n =>
    cases run
    exact h
  | simple op => exact each_simple h plain element run
  | intOp op v =>
    dsimp only [execute] at run
    split at run
    · obtain ⟨t, popped, run⟩ := bind_ok_iff.1 run
      split at run
      · rename_i name known
        cases run
        exact (each_pop h popped).push (brought _ (by simp [brings, known])) fun _ mem => mem
      · cases run
    · exact each_replaceOne h (plain .int rfl) run
  | var op slot => exact each_varOp h plain run
  | iinc slot delta =>
    cases run
    exact h.store (plain .top rfl) (plain .int rfl) _
  | typeOp op name =>
    exact each_typeOp h plain fresh (brought _ (by simp [brings])) (brought _ (by simp [brings]))
      run
  | field op member =>
    refine each_field h (fun t parsed => brought _ ?_) run
    simp [brings, parsed, Except.toOption]
  | method op member ofInterface =>
    refine each_call h (fun target same => ?_)
      (fun t mem => brought t (List.mem_append_right _ mem)) run
    split at same
    · cases same
    · cases same
      exact ⟨brought _ (by simp [brings]), brought _ (by simp [brings])⟩
  | callSite name desc b =>
    dsimp only [execute] at run
    exact each_call h (by nofun) brought run
  | ldc value =>
    obtain ⟨t, loaded, run⟩ := bind_ok_iff.1 run
    exact each_replaceOne h (brought t (by simp [brings, loaded, Except.toOption])) run
  | jump op x =>
    dsimp only [execute] at run
    split at run
    · cases run
      exact h
    · split at run
      · cases run
      · split at run
        · exact each_pop h run
        · exact each_pop h run
  | tableSwitch fallback low high targets => exact each_pop h run
  | lookupSwitch fallback pairs => exact each_pop h run
  | newArrays name dims => exact each_replaceOne h (brought _ (List.mem_singleton_self _)) run

end MethodSite

end ClassWeave
