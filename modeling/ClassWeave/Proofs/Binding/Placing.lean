import Mathlib.Tactic.Common
import ClassWeave.Proofs.Binding
import ClassWeave.Proofs.Body
import ClassWeave.Proofs.CodeArray

/-!
# No label is missed

Analysing a body, laying it out and writing it look labels up. In a closed body all of them are
found: whatever else may stop the writer, a label that is bound nowhere does not.
-/

set_option autoImplicit false

namespace ClassWeave

def WriteError.LabelsFound (e : WriteError) : Prop := ∀ l, e ≠ .unboundLabel l

/-- A step that misses no label, and whose answer has `P`. -/
def Finds {α : Type} (x : Except WriteError α) (P : α → Prop) : Prop :=
  match x with
  | .ok a => P a
  | .error e => e.LabelsFound

namespace Finds

variable {α β : Type} {x : Except WriteError α} {P Q : α → Prop} {R : β → Prop}

theorem mono (h : Finds x P) (imp : ∀ a, x = .ok a → P a → Q a) : Finds x Q := by
  cases x with
  | error e => exact h
  | ok a => exact imp a rfl h

theorem bind {k : α → Except WriteError β} (h : Finds x P)
    (hk : ∀ a, x = .ok a → P a → Finds (k a) R) : Finds (x >>= k) R := by
  cases x with
  | error e => exact h
  | ok a => exact hk a rfl h

theorem map {f : α → β} (h : Finds x P) : Finds (x.map f) fun _ => True := by
  cases x with
  | error e => exact h
  | ok a => trivial

theorem orMalformed {x : Except FormatError α} : Finds (orMalformed x) fun _ => True := by
  cases x with
  | error e => exact fun l => nofun
  | ok a => trivial

theorem mapM {k : β → Except WriteError α} {bs : List β}
    (hk : ∀ b ∈ bs, Finds (k b) fun _ => True) : Finds (bs.mapM k) fun _ => True := by
  induction bs with
  | nil => trivial
  | cons b bs ih =>
    rw [List.mapM_cons]
    refine bind (hk b (List.mem_cons_self ..)) fun a _ _ => ?_
    exact bind (ih fun c mem => hk c (List.mem_cons_of_mem b mem)) fun _ _ _ => trivial

end Finds

def AlwaysFinds {σ α : Type} (m : GrowthOf σ α) (P : α → Prop) : Prop := ∀ s, Finds (m s).1 P

namespace AlwaysFinds

variable {σ α β : Type} {P Q : α → Prop} {R : β → Prop}

theorem pure {a : α} (h : P a) : AlwaysFinds (Pure.pure a : GrowthOf σ α) P := fun _ => h

theorem done {a : α} : AlwaysFinds (Pure.pure a : GrowthOf σ α) fun _ => True := pure trivial

theorem throw {e : WriteError} (h : e.LabelsFound) :
    AlwaysFinds (MonadExcept.throw e : GrowthOf σ α) P := fun _ => h

theorem lift {x : Except WriteError α} (h : Finds x P) :
    AlwaysFinds (liftM x : GrowthOf σ α) P := by
  cases x with
  | error e => exact throw h
  | ok a => exact pure h

theorem bind {m : GrowthOf σ α} {k : α → GrowthOf σ β} (hm : AlwaysFinds m P)
    (hk : ∀ a, P a → AlwaysFinds (k a) R) : AlwaysFinds (m >>= k) R := by
  intro s
  have first := hm s
  show Finds (ExceptT.bindCont k (m s).1 (m s).2).1 R
  cases answer : (m s).1 with
  | error e =>
    rw [answer] at first
    exact first
  | ok a =>
    rw [answer] at first
    exact hk a first (m s).2

theorem mapM {k : β → GrowthOf σ α} {bs : List β}
    (hk : ∀ b ∈ bs, AlwaysFinds (k b) fun _ => True) :
    AlwaysFinds (bs.mapM k) fun _ => True := by
  induction bs with
  | nil =>
    rw [List.mapM_nil]
    exact done
  | cons b bs ih =>
    rw [List.mapM_cons]
    refine bind (hk b (List.mem_cons_self ..)) fun a _ => ?_
    exact bind (ih fun c mem => hk c (List.mem_cons_of_mem b mem)) fun _ _ => done

theorem of_fails {m : GrowthOf σ α} (fails : FailsOnly m (· = .poolOverflow))
    (answers : Answers m P) : AlwaysFinds m P := by
  intro s
  rcases run : m s with ⟨e | a, t⟩
  · cases fails s e t run
    exact fun l => nofun
  · exact answers s a t run

theorem of_full {m : GrowthOf σ α} (fails : FailsOnly m (· = .poolOverflow)) :
    AlwaysFinds m fun _ => True := of_fails fails .trivial

theorem onPool {step : Pool.Growth α} (h : AlwaysFinds step P) :
    AlwaysFinds (Tables.onPool step) P := fun s => h s.pool

end AlwaysFinds

section Analysis

variable {m : MethodSite} {index : Nat} {s : State}

namespace MethodSite

theorem finds_refuse {α : Type} {P : α → Prop} (fault : VerifyFault) :
    Finds (m.refuse fault : Except WriteError α) P := fun _ => nofun

theorem finds_tooLow {α : Type} {P : α → Prop} :
    Finds (m.tooLow index : Except WriteError α) P := fun _ => nofun

theorem finds_replaceTop (n : Nat) (pushes : List VType) :
    Finds (m.replaceTop index n pushes s) fun _ => True := by
  unfold replaceTop
  split
  · exact finds_tooLow
  · trivial

theorem finds_pushResult (d : MethodDescriptor) :
    Finds (match d.result with
      | none => pure s
      | some t => pure { s with stack := VType.ofFieldType t :: s.stack } :
        Except WriteError State) fun _ => True := by
  cases d.result <;> trivial

theorem finds_call (desc : String) (receiver : Option MemberRef) :
    Finds (m.call index desc receiver s) fun _ => True := by
  refine .bind .orMalformed fun d _ _ => .bind (finds_replaceTop _ _) fun s _ _ => ?_
  dsimp only
  split
  · exact finds_pushResult d
  · split
    · exact finds_tooLow
    · split
      · exact finds_pushResult d
      · split
        · exact finds_pushResult d
        · exact finds_pushResult d
        · exact finds_refuse _

theorem finds_elementType (array : VType) : Finds (elementType array) fun _ => True := by
  unfold elementType
  split
  · split
    · exact .map .orMalformed
    · trivial
  · trivial

theorem finds_simple (op : Opcode) : Finds (m.simple index op s) fun _ => True := by
  unfold simple
  split
  · exact finds_refuse _
  · exact finds_replaceTop _ _
  · split
    · exact .bind (finds_elementType _) fun _ _ _ => trivial
    · exact finds_tooLow
  · split
    · trivial
    · exact finds_tooLow

theorem finds_varOp (op : Opcode) (slot : Nat) :
    Finds (m.varOp index op slot s) fun _ => True := by
  unfold varOp
  iterate 5
    split
    · exact finds_replaceTop _ _
  split
  · split
    · trivial
    · exact finds_tooLow
  · exact finds_refuse _

theorem finds_typeOp (op : Opcode) (name : String) (site : Option Label) :
    Finds (m.typeOp index op name site s) fun _ => True := by
  unfold typeOp
  split
  · split
    · exact finds_replaceTop _ _
    · exact finds_refuse _
  · repeat' split
    all_goals exact finds_replaceTop _ _

theorem finds_field (op : Opcode) (desc : String) :
    Finds (m.field index op desc s) fun _ => True := by
  refine .bind .orMalformed fun t _ _ => ?_
  dsimp only
  repeat' split
  all_goals exact finds_replaceTop _ _

theorem finds_loadableType (value : Loadable) : Finds (loadableType value) fun _ => True := by
  cases value with
  | dynamic name desc handle args => exact .map .orMalformed
  | _ => trivial

theorem finds_execute (site : Option Label) (insn : Insn) :
    Finds (m.execute index site insn s) fun _ => True := by
  cases insn with
  | label x | line n | iinc slot delta => trivial
  | simple op => exact finds_simple op
  | intOp op v =>
    dsimp only [execute]
    split
    · refine .bind (finds_replaceTop _ _) fun t _ _ => ?_
      split
      · trivial
      · exact finds_refuse _
    · exact finds_replaceTop _ _
  | var op slot => exact finds_varOp op _
  | typeOp op name => exact finds_typeOp op name site
  | field op member => exact finds_field op _
  | method op member ofInterface => exact finds_call _ _
  | callSite name desc b => exact finds_call desc none
  | ldc value => exact .bind (finds_loadableType value) fun _ _ _ => finds_replaceTop _ _
  | jump op x =>
    dsimp only [execute]
    split
    · trivial
    · split
      · exact finds_refuse _
      · split <;> exact finds_replaceTop _ _
  | tableSwitch fallback low high targets => exact finds_replaceTop _ _
  | lookupSwitch fallback pairs => exact finds_replaceTop _ _
  | newArrays name dims => exact finds_replaceTop _ _

end MethodSite

def Flow.Leads (f : Flow) : Prop :=
  ∀ insn ∈ f.insns.toList, ∀ l ∈ insn.targets, ∃ n, f.positions.place l = .ok n

theorem Flow.Leads.finds_successors {f : Flow} (h : f.Leads) {i : Nat} {insn : Insn}
    (found : f.insns[i]? = some insn) : Finds (f.successors i insn) fun _ => True := by
  have mem : insn ∈ f.insns.toList :=
    List.mem_of_getElem? ((Array.getElem?_toList ..).trans found)
  obtain ⟨jumps, placed⟩ := mapM_ok (h insn mem)
  unfold successors
  dsimp only
  rw [placed]
  split
  · split <;> trivial
  · trivial
  · trivial
  · trivial
  · trivial

namespace Analysis

variable {a : Analysis}

theorem finds_deliver (states : States) (work : List Nat) (i : Nat) (incoming : State) :
    Finds (a.deliver states work i incoming) fun _ => True := by
  have arrived : Finds (a.arrive i ((states[i]?).getD none) incoming) fun _ => True := by
    unfold arrive
    split
    · trivial
    · split
      · exact fun l => nofun
      · trivial
  refine .bind arrived fun new _ _ => ?_
  split <;> trivial

theorem finds_deliverToHandlers (i : Nat) (before : State) (ranges : List HandlerRange)
    (states : States) (work : List Nat) :
    Finds (a.deliverToHandlers i before ranges states work) fun _ => True := by
  induction ranges generalizing states work with
  | nil => trivial
  | cons r rest ih =>
    unfold deliverToHandlers
    split
    · exact .bind (finds_deliver ..) fun _ _ _ => ih _ _
    · exact ih _ _

theorem finds_deliverToSuccessors (after : State) (targets : List Nat) (states : States)
    (work : List Nat) :
    Finds (a.deliverToSuccessors after targets states work) fun _ => True := by
  induction targets generalizing states work with
  | nil => trivial
  | cons s rest ih =>
    unfold deliverToSuccessors
    dsimp only
    split
    · exact MethodSite.finds_refuse _
    · exact .bind (finds_deliver ..) fun _ _ _ => ih _ _

theorem finds_settle (leads : a.flow.Leads) (fuel : Nat) (states : States) (work : List Nat)
    (maxStack : Nat) : Finds (a.settle fuel states work maxStack) fun _ => True := by
  induction fuel generalizing states work maxStack with
  | zero =>
    cases work with
    | nil => trivial
    | cons i work => exact MethodSite.finds_refuse _
  | succ fuel ih =>
    cases work with
    | nil => trivial
    | cons i work =>
      unfold settle
      split
      · rename_i before insn _ found
        have served : Finds (a.serve i before insn states work maxStack) fun _ => True := by
          refine .bind (finds_deliverToHandlers ..) fun _ _ _ => ?_
          refine .bind (MethodSite.finds_execute ..) fun _ _ _ => ?_
          refine .bind (leads.finds_successors found) fun _ _ _ => ?_
          exact .bind (finds_deliverToSuccessors ..) fun _ _ _ => trivial
        split
        · exact ih _ _ _
        · rename_i failed
          rw [failed] at served
          exact served
      · exact ih _ _ _

end Analysis

end Analysis

theorem exists_stands_of_mem {l : Label} {insns : List Insn} (mem : Insn.label l ∈ insns)
    (n : Nat) : ∃ i, Stands l i n insns := by
  induction insns generalizing n with
  | nil => cases mem
  | cons insn rest ih =>
    rcases List.mem_cons.1 mem with rfl | mem
    · exact ⟨n, .here rest⟩
    · obtain ⟨i, stands⟩ := ih mem (insn.next n)
      exact ⟨i, .later insn stands⟩

theorem Code.Binds.place_eq_ok {c : Code} {l : Label} (h : c.Binds l) :
    ∃ n, c.positions.place l = .ok n := by
  obtain ⟨i, stands⟩ := exists_stands_of_mem h 0
  rcases find?_positionsFrom Positions.empty 0 c.insns with ⟨j, found, _⟩ | ⟨_, absent⟩
  · exact ⟨j, Positions.place_eq_ok.2 found⟩
  · exact absurd stands (absent i)

namespace Code.Closed

variable {c : Code}

theorem finds_ofCode (h : c.Closed) (m : MethodSite) : Finds (Flow.ofCode m c) Flow.Leads := by
  have ranged : ∀ count, ∀ e ∈ c.handlers,
      Finds (Flow.range m c.positions count e) fun _ => True := by
    intro count e mem
    obtain ⟨start, finish, target⟩ := h.handlers e mem
    obtain ⟨_, target⟩ := target.place_eq_ok
    obtain ⟨_, start⟩ := start.place_eq_ok
    obtain ⟨_, finish⟩ := finish.place_eq_ok
    unfold Flow.range
    rw [target, start, finish]
    dsimp only [bind, Except.bind]
    split
    · exact MethodSite.finds_refuse _
    · trivial
  have leads : ∀ ranges, Flow.Leads ⟨c.executed.toArray, c.positions, ranges⟩ :=
    fun ranges insn mem l named => (h.targets insn (List.mem_of_mem_filter mem) l
      named).place_eq_ok
  unfold Flow.ofCode
  dsimp only
  split
  · exact MethodSite.finds_refuse _
  · exact .bind (.mapM (ranged _)) fun ranges _ _ => leads ranges

theorem finds_prepare (h : c.Closed) (hierarchy : Hierarchy) (owner : String) (m : Method) :
    Finds (Reframe.prepare hierarchy owner m c) fun p => p.analysis.flow.Leads := by
  refine .bind .orMalformed fun d _ _ => .bind (h.finds_ofCode _) fun flow _ leads => ?_
  have jumped : Finds flow.jumpTargets fun _ => True := by
    refine .bind (.mapM fun insn mem => ?_) fun _ _ _ => trivial
    obtain ⟨targets, placed⟩ := mapM_ok (leads insn mem)
    rw [placed]
    trivial
  exact .bind jumped fun _ _ _ => leads

theorem finds_reframe (h : c.Closed) (hierarchy : Hierarchy) (owner : String) (m : Method)
    (withFrames : Bool) : Finds (ClassWeave.reframe hierarchy owner m c withFrames) Closed := by
  have runs : Finds (ClassWeave.reframe hierarchy owner m c withFrames) fun _ => True :=
    .bind (h.finds_prepare hierarchy owner m) fun p _ leads =>
      .bind (Analysis.finds_settle leads _ _ _ _) fun _ _ _ => trivial
  exact runs.mono fun c' run _ => h.reframe run

theorem finds_widen (h : c.Closed) {far : List (Option Int)}
    (whole : far.length = c.insns.length) : Finds (c.widen far) fun w => w.1.Closed := by
  have added : ∀ (w : Widening) (s : Insn × Option Int),
      Finds (w.add s.1 s.2) fun _ => True := by
    intro w s
    unfold Widening.add
    split
    · split
      · trivial
      · split
        · trivial
        · split
          · exact fun l => nofun
          · trivial
    · trivial
  have steps : ∀ (steps : List (Insn × Option Int)) (w : Widening),
      Finds (steps.foldlM (fun (w : Widening) s => w.add s.1 s.2) w) fun _ => True := by
    intro steps
    induction steps with
    | nil => exact fun w => trivial
    | cons s steps ih => exact fun w => .bind (added w s) fun w _ _ => ih w
  have runs : Finds (c.widen far) fun _ => True := .bind (steps _ _) fun _ _ _ => trivial
  exact runs.mono fun w run _ => h.widen whole run

end Code.Closed

namespace Layout

variable {insns : List Insn} {l : Layout}

theorem fails_place (l : Layout) (insn : Insn) :
    FailsOnly (place l insn) (· = .poolOverflow) := by
  cases insn with
  | ldc v => exact .bind (Tables.fails_internLoadable v) fun _ => .pure
  | _ => exact .pure

theorem finds_ofInsns (insns : List Insn) : AlwaysFinds (ofInsns insns) (Laid insns) := by
  have steps : ∀ (insns : List Insn) (l : Layout),
      FailsOnly (insns.foldlM place l) (· = .poolOverflow) := by
    intro insns
    induction insns with
    | nil => exact fun l => .pure
    | cons insn insns ih =>
      intro l
      rw [List.foldlM_cons]
      exact .bind (fails_place l insn) fun l => ih l
  exact .of_fails (.bind (steps _ _) fun _ => .pure) (answers_ofInsns insns)

namespace Laid

variable (h : Laid insns l)

include h

theorem finds_place {x : Label} (bound : Insn.label x ∈ insns) :
    Finds (l.positions.place x) fun _ => True := by
  obtain ⟨n, place⟩ := h.place_eq_ok bound
  rw [place]
  trivial

theorem finds_offset32 {x : Label} (bound : Insn.label x ∈ insns) (pc : Nat) :
    Finds (l.offset32 pc x) fun _ => True := by
  obtain ⟨n, place⟩ := h.offset32_eq_ok bound pc
  rw [place]
  trivial

theorem finds_offset16 {x : Label} (bound : Insn.label x ∈ insns) (pc : Nat) :
    Finds (l.offset16 pc x) fun _ => True := by
  have known : Finds (l.distance pc x) fun _ => True :=
    .bind (h.finds_place bound) fun _ _ _ => trivial
  refine .bind known fun distance _ _ => ?_
  split
  · trivial
  · exact fun x => nofun

theorem finds_farDistances (bound : ∀ i ∈ insns, ∀ x ∈ i.targets, Insn.label x ∈ insns) :
    Finds l.farDistances fun far => far.length = insns.length := by
  have each : ∀ p ∈ l.placed, Finds (l.farDistance p) fun _ => True := by
    intro p mem
    have listed : p.insn ∈ insns := h.insns ▸ List.mem_map_of_mem mem
    unfold farDistance
    split
    · rename_i op x jump
      split
      · trivial
      · refine .bind (h.finds_place ?_) fun _ _ _ => trivial
        exact bound p.insn listed x (jump ▸ List.mem_singleton_self x)
    · trivial
  have runs : Finds l.farDistances fun _ => True := .mapM each
  refine runs.mono fun far run _ => ?_
  rw [← (mapM_ok_iff.1 run).length_eq, ← h.insns, List.length_map]

theorem finds_emitInsn (bound : ∀ i ∈ insns, ∀ x ∈ i.targets, Insn.label x ∈ insns)
    {p : Placed} (mem : p ∈ l.placed) : AlwaysFinds (l.emitInsn p) fun _ => True := by
  have listed : p.insn ∈ insns := h.insns ▸ List.mem_map_of_mem mem
  replace bound := bound p.insn listed
  obtain ⟨pc, insn, index⟩ := p
  cases insn with
  | typeOp op name | newArrays name dims =>
    exact .bind (.of_full (Tables.fails_onPool (Pool.fails_internClass _))) fun _ _ =>
      .done
  | field op m =>
    exact .bind (.of_full (Tables.fails_onPool (Pool.fails_internField _))) fun _ _ =>
      .done
  | callSite name desc b =>
    exact .bind (.of_full (Tables.fails_internCallSite _ _ _)) fun _ _ => .done
  | method op m ofInterface =>
    refine .bind (.of_full (Tables.fails_onPool (Pool.fails_internMethod _ _))) fun i _ => ?_
    split
    · exact .bind (.lift .orMalformed) fun _ _ => .done
    · exact .done
  | ldc v =>
    dsimp only [emitInsn]
    split
    · exact .done
    · exact .throw fun x => nofun
  | jump op x =>
    have bound := bound x (List.mem_singleton.2 rfl)
    dsimp only [emitInsn]
    split
    · exact .bind (.lift (h.finds_offset32 bound pc)) fun _ _ => .done
    · exact .bind (.lift (h.finds_offset16 bound pc)) fun _ _ => .done
  | tableSwitch fallback low high targets =>
    refine .bind (.lift (h.finds_offset32 (bound _ (List.mem_cons_self ..)) pc)) fun _ _ => ?_
    refine .bind (.lift (.mapM fun x hx => ?_)) fun _ _ => .done
    exact h.finds_offset32 (bound x (List.mem_cons_of_mem _ hx)) pc
  | lookupSwitch fallback pairs =>
    refine .bind (.lift (h.finds_offset32 (bound _ (List.mem_cons_self ..)) pc)) fun _ _ => ?_
    refine .bind (.lift (.mapM fun pair hp => ?_)) fun _ _ => .done
    rw [(sortOn_perm _ pairs).mem_iff] at hp
    refine .bind (h.finds_offset32 ?_ pc) fun _ _ _ => trivial
    exact bound _ (List.mem_cons_of_mem _ (List.mem_map_of_mem hp))
  | label x | line n | simple op | intOp op v | var op slot | iinc slot delta =>
    exact .done

end Laid

end Layout

namespace ClassFile

variable {t : BodyTarget} {c : Code} {l : Layout}

theorem finds_settleBranches (rounds : Nat) (closed : c.Closed) :
    AlwaysFinds (settleBranches t rounds c) fun s =>
      s.1.Closed ∧ Layout.Laid s.1.insns s.2 := by
  have refused : WriteError.LabelsFound (.verify (t.owner ++ "." ++ t.method.name ++
    t.method.desc) .branchesUnsettled) := fun l => nofun
  induction rounds generalizing c with
  | zero =>
    unfold settleBranches
    refine .bind (Layout.finds_ofInsns c.insns) fun l laid => ?_
    refine .bind (.lift (laid.finds_farDistances closed.targets)) fun far _ => ?_
    split
    · exact .pure ⟨closed, laid⟩
    · exact .throw refused
  | succ rounds ih =>
    unfold settleBranches
    refine .bind (Layout.finds_ofInsns c.insns) fun l laid => ?_
    refine .bind (.lift (laid.finds_farDistances closed.targets)) fun far whole => ?_
    split
    · exact .pure ⟨closed, laid⟩
    · refine .bind (.lift (closed.finds_widen whole)) fun w closed => ?_
      dsimp only
      split
      · exact .bind (.lift (closed.finds_reframe ..)) fun c closed => ih closed
      · exact ih closed

theorem finds_settle (closed : c.Closed) :
    AlwaysFinds (t.settle c) fun s => s.1.Closed ∧ Layout.Laid s.1.insns s.2 := by
  unfold BodyTarget.settle
  split
  · exact .bind (.lift (closed.finds_reframe ..)) fun c closed => finds_settleBranches _ closed
  · exact finds_settleBranches _ closed

section Attributes

variable (closed : c.Closed) (laid : Layout.Laid c.insns l)

include laid

theorem finds_encodeHandler {e : Handler} (bound : c.Binds e.start ∧ c.Binds e.finish ∧
    c.Binds e.target) : AlwaysFinds (encodeHandler l.positions e) fun _ => True := by
  obtain ⟨start, finish, target⟩ := bound
  refine .bind (.lift (laid.finds_place start)) fun start _ => ?_
  refine .bind (.lift (laid.finds_place finish)) fun finish _ => ?_
  dsimp only
  split
  · exact .done
  · refine .bind (.lift (laid.finds_place target)) fun target _ => ?_
    split
    · exact .bind (.of_full (Tables.fails_onPool (Pool.fails_internClass _))) fun _ _ => .done
    · exact .done

theorem finds_encodeLocal {v : LocalVariable} (bound : c.Binds v.start ∧ c.Binds v.finish) :
    AlwaysFinds (encodeLocal l.positions v) fun _ => True := by
  refine .bind (.lift (laid.finds_place bound.1)) fun start _ => ?_
  refine .bind (.lift (laid.finds_place bound.2)) fun finish _ => ?_
  refine .bind (.of_full (Tables.fails_onPool (Pool.fails_intern _))) fun _ _ => ?_
  exact .bind (.of_full (Tables.fails_onPool (Pool.fails_intern _))) fun _ _ => .done

theorem finds_encodeLocals (name : String) {locals : List LocalVariable}
    (bound : ∀ v ∈ locals, c.Binds v.start ∧ c.Binds v.finish) :
    AlwaysFinds (encodeLocals l.positions name locals) fun _ => True := by
  unfold encodeLocals
  split
  · exact .done
  · exact .bind (.mapM fun v mem => finds_encodeLocal laid (bound v mem)) fun _ _ => .done

theorem finds_writeType {type : VType} (bound : ∀ x, type = .uninit x → c.Binds x) :
    AlwaysFinds (StackMap.writeType l.positions type) fun _ => True := by
  cases type with
  | object name => exact .bind (.of_full (Pool.fails_internClass _)) fun _ _ => .done
  | uninit x => exact .bind (.lift (laid.finds_place (bound x rfl))) fun _ _ => .done
  | _ => exact .done

theorem finds_writeVTypes {types : List VType}
    (bound : ∀ type ∈ types, ∀ x, type = .uninit x → c.Binds x) :
    AlwaysFinds (StackMap.writeVTypes l.positions types) fun _ => True :=
  .bind (.mapM fun type mem => finds_writeType laid (bound type mem)) fun _ _ => .done

theorem finds_writeChange (distance : Nat) (before : List VType) {frame : Frame}
    (bound : ∀ x ∈ uninitSites frame, c.Binds x) :
    AlwaysFinds (StackMap.writeChange l.positions distance before frame) fun _ => True := by
  have sites : ∀ type ∈ frame.locals ++ frame.stack, ∀ x, type = .uninit x → c.Binds x := by
    rintro _ mem x rfl
    exact bound x (List.mem_filterMap.2 ⟨_, mem, rfl⟩)
  have locals : ∀ type ∈ frame.locals, ∀ x, type = .uninit x → c.Binds x :=
    fun type mem => sites type (List.mem_append_left _ mem)
  have stack : ∀ type ∈ frame.stack, ∀ x, type = .uninit x → c.Binds x :=
    fun type mem => sites type (List.mem_append_right _ mem)
  have full : AlwaysFinds (do
      let localTypes ← StackMap.writeVTypes l.positions frame.locals
      let stackTypes ← StackMap.writeVTypes l.positions frame.stack
      return 255 :: Bytes.be 2 distance ++ Bytes.be 2 frame.locals.length ++ localTypes ++
        Bytes.be 2 frame.stack.length ++ stackTypes : Pool.Growth Bytes) fun _ => True := by
    refine .bind (finds_writeVTypes laid locals) fun _ _ => ?_
    exact .bind (finds_writeVTypes laid stack) fun _ _ => .done
  unfold StackMap.writeChange
  dsimp only
  split
  · split
    · exact .done
    · split
      · exact .done
      · split
        · exact .bind (finds_writeVTypes laid fun type mem =>
            locals type (List.mem_of_mem_drop mem)) fun _ _ => .done
        · exact full
  · rename_i one
    split
    · refine .bind (finds_writeType laid (stack _ ?_)) fun _ _ => .done
      rw [one]
      exact List.mem_singleton_self _
    · exact full
  · exact full

theorem finds_writeFrames (before : Option Nat) (locals : List VType) (done : List Bytes)
    {frames : List (Nat × Frame)}
    (bound : ∀ f ∈ frames, ∀ x ∈ uninitSites f.2, c.Binds x) :
    AlwaysFinds (StackMap.writeFrames l.positions before locals frames done) fun _ => True := by
  induction frames generalizing before locals done with
  | nil => exact .done
  | cons f frames ih =>
    unfold StackMap.writeFrames
    refine .bind (finds_writeChange laid _ _ (bound f (List.mem_cons_self ..))) fun _ _ => ?_
    exact ih _ _ _ fun f mem => bound f (List.mem_cons_of_mem _ mem)

theorem finds_placedFrames {frames : List LabelledFrame}
    (bound : ∀ f ∈ frames, c.BindsFrame f) :
    Finds (placedFrames l.positions frames) fun placed =>
      ∀ f ∈ placed, ∀ x ∈ uninitSites f.2, c.Binds x := by
  have runs : Finds (placedFrames l.positions frames) fun _ => True := by
    refine .bind (.mapM fun f mem => ?_) fun _ _ _ => trivial
    exact .bind (laid.finds_place (bound f mem).place) fun _ _ _ => trivial
  refine runs.mono fun placed run _ f mem => ?_
  obtain ⟨all, each, run⟩ := bind_ok_iff.1 run
  cases run
  have old : f ∈ all := (sortOn_perm _ all).mem_iff.1 (mem_of_mem_dedupOn mem)
  obtain ⟨g, gMem, same⟩ := exists_left_of_forall₂ (mapM_ok_iff.1 each) old
  obtain ⟨n, _, same⟩ := bind_ok_iff.1 same
  cases same
  exact (bound g gMem).sites

include closed

theorem finds_encodeFrames : AlwaysFinds (encodeFrames t l.positions c) fun _ => True := by
  unfold encodeFrames
  dsimp only
  split
  · exact .done
  · refine .bind (.lift (finds_placedFrames laid closed.frames)) fun placed bound => ?_
    refine .bind (.lift .orMalformed) fun d _ => ?_
    have written : AlwaysFinds (StackMap.encode l.positions
        (entryLocals t.owner t.method.access t.method.name d) placed) fun _ => True :=
      .bind (finds_writeFrames laid _ _ _ bound) fun _ _ => .done
    exact .bind (.onPool written) fun _ _ => .done

end Attributes

theorem fails_encodeAttributes (attributes : List Attribute) :
    FailsOnly (encodeAttributes attributes) (· = .poolOverflow) :=
  .bind (.mapM fun _ _ => .bind (Tables.fails_onPool (Pool.fails_intern _)) fun _ => .pure)
    fun _ => .pure

theorem finds_encodeCode (t : BodyTarget) (closed : c.Closed) :
    AlwaysFinds (encodeCode t c) fun _ => True := by
  rw [BodyTarget.encodeCode_eq]
  refine .bind (finds_settle closed) fun s ⟨closed, laid⟩ => ?_
  have kept : ∀ p : LocalVariable → Bool, ∀ v ∈ s.1.locals.filter p,
      s.1.Binds v.start ∧ s.1.Binds v.finish :=
    fun p v mem => closed.locals v (List.mem_of_mem_filter mem)
  unfold BodyTarget.encodeSettled
  dsimp only
  split
  · exact .throw fun l => nofun
  · refine .bind (.bind (.mapM fun p mem => laid.finds_emitInsn closed.targets mem) fun _ _ =>
      .done) fun bytes _ => ?_
    refine .bind (.mapM fun e mem => finds_encodeHandler laid (closed.handlers e mem))
      fun handlers _ => ?_
    refine .bind (finds_encodeFrames closed laid) fun frames _ => ?_
    refine .bind (finds_encodeLocals laid _ (kept _)) fun plain _ => ?_
    refine .bind (finds_encodeLocals laid _ (kept _)) fun generic _ => ?_
    exact .bind (.of_full (fails_encodeAttributes _)) fun _ _ => .done

end ClassFile

end ClassWeave
