import Mathlib.Data.List.Forall2
import Mathlib.Tactic.Common
import ClassWeave.Proofs.Emission
import ClassWeave.Proofs.Sequences

/-!
# Code arrays read back

A list of instructions is laid out, written and read again. What comes back are its executed
instructions, each at the offset that the layout gave it. Writing stops for two reasons only: an
index that the pool has no room for, and the malformed descriptor of an interface's method.
-/

set_option autoImplicit false

namespace ClassWeave

def FailsOnly {σ α : Type} (m : GrowthOf σ α) (E : WriteError → Prop) : Prop :=
  ∀ s e t, m s = (.error e, t) → E e

namespace FailsOnly

variable {σ α β : Type} {E : WriteError → Prop}

theorem pure {a : α} : FailsOnly (Pure.pure a : GrowthOf σ α) E := by
  intro s e t run
  cases run

theorem throw {e : WriteError} (h : E e) :
    FailsOnly (MonadExcept.throw e : GrowthOf σ α) E := by
  intro s e' t run
  cases run
  exact h

theorem lift {x : Except WriteError α} (h : ∀ e, x = .error e → E e) :
    FailsOnly (liftM x : GrowthOf σ α) E := by
  cases x with
  | error e => exact throw (h e rfl)
  | ok a => exact pure

theorem bind {m : GrowthOf σ α} {k : α → GrowthOf σ β} (hm : FailsOnly m E)
    (hk : ∀ a, FailsOnly (k a) E) : FailsOnly (m >>= k) E := by
  intro s e u run
  change ExceptT.bindCont k (m s).1 (m s).2 = _ at run
  rcases first : m s with ⟨e' | a, t⟩
  · rw [first] at run
    cases run
    exact hm s _ t first
  · rw [first] at run
    exact hk a t e u run

theorem mapM {k : α → GrowthOf σ β} {as : List α} (hk : ∀ a ∈ as, FailsOnly (k a) E) :
    FailsOnly (as.mapM k) E := by
  induction as with
  | nil =>
    rw [List.mapM_nil]
    exact pure
  | cons a as ih =>
    rw [List.mapM_cons]
    refine bind (hk a (List.mem_cons_self ..)) fun b => ?_
    exact bind (ih fun c hc => hk c (List.mem_cons_of_mem a hc)) fun bs => pure

theorem mono {m : GrowthOf σ α} {E' : WriteError → Prop} (hm : FailsOnly m E)
    (h : ∀ e, E e → E' e) : FailsOnly m E' := fun s e t run => h e (hm s e t run)

end FailsOnly

namespace Pool

theorem fails_intern (c : Constant) : FailsOnly (intern c) (· = .poolOverflow) := by
  intro p e q run
  unfold intern at run
  split at run
  · cases run
  · dsimp only at run
    split at run
    · cases run
      rfl
    · cases run

theorem fails_internClass (name : String) : FailsOnly (internClass name) (· = .poolOverflow) :=
  .bind (fails_intern _) fun _ => fails_intern _

theorem fails_internNameAndType (name desc : String) :
    FailsOnly (internNameAndType name desc) (· = .poolOverflow) :=
  .bind (fails_intern _) fun _ => .bind (fails_intern _) fun _ => fails_intern _

theorem fails_internField (m : MemberRef) : FailsOnly (internField m) (· = .poolOverflow) :=
  .bind (fails_internClass _) fun _ => .bind (fails_internNameAndType _ _) fun _ => fails_intern _

theorem fails_internMethod (m : MemberRef) (ofInterface : Bool) :
    FailsOnly (internMethod m ofInterface) (· = .poolOverflow) :=
  .bind (fails_internClass _) fun _ => .bind (fails_internNameAndType _ _) fun _ => fails_intern _

theorem fails_internHandle (h : Handle) : FailsOnly (internHandle h) (· = .poolOverflow) := by
  unfold internHandle
  dsimp only
  split
  · exact .bind (fails_internField _) fun _ => fails_intern _
  · exact .bind (fails_internMethod _ _) fun _ => fails_intern _

end Pool

namespace Tables

theorem fails_onPool {α : Type} {step : Pool.Growth α} {E : WriteError → Prop}
    (h : FailsOnly step E) : FailsOnly (onPool step) E := by
  intro s e t run
  obtain ⟨answer, _⟩ := Prod.mk.inj run
  exact h s.pool e _ (Prod.ext answer rfl)

theorem fails_internEntry (e : BootstrapEntry) :
    FailsOnly (internEntry e) (· = .poolOverflow) := by
  intro s e' t run
  unfold internEntry at run
  dsimp only at run
  split at run
  · cases run
  · split at run
    · cases run
      rfl
    · cases run

mutual

theorem fails_internLoadable (v : Loadable) :
    FailsOnly (internLoadable v) (· = .poolOverflow) := by
  have one (c : Constant) : FailsOnly (onPool (Pool.intern c)) (· = .poolOverflow) :=
    fails_onPool (Pool.fails_intern c)
  cases v with
  | int v => exact one _
  | float bits => exact one _
  | long v => exact one _
  | double bits => exact one _
  | string text => exact fails_onPool (.bind (Pool.fails_intern _) fun _ => Pool.fails_intern _)
  | type name => exact fails_onPool (Pool.fails_internClass _)
  | methodType desc => exact .bind (one _) fun _ => one _
  | handle h => exact fails_onPool (Pool.fails_internHandle h)
  | dynamic name desc h args =>
    refine .bind (fails_onPool (Pool.fails_internHandle h)) fun _ => ?_
    refine .bind (fails_internLoadables args) fun _ => .bind (fails_internEntry _) fun _ => ?_
    exact .bind (fails_onPool (Pool.fails_internNameAndType name desc)) fun _ => one _

theorem fails_internLoadables (vs : List Loadable) :
    FailsOnly (internLoadables vs) (· = .poolOverflow) := by
  cases vs with
  | nil => exact .pure
  | cons v vs =>
    exact .bind (fails_internLoadable v) fun _ => .bind (fails_internLoadables vs) fun _ => .pure

end

theorem fails_internCallSite (name desc : String) (b : Bootstrap) :
    FailsOnly (internCallSite name desc b) (· = .poolOverflow) := by
  have entry : FailsOnly (internBootstrap b) (· = .poolOverflow) :=
    .bind (fails_onPool (Pool.fails_internHandle _)) fun _ =>
      .bind (fails_internLoadables _) fun _ => fails_internEntry _
  refine .bind entry fun _ => ?_
  exact .bind (fails_onPool (Pool.fails_internNameAndType name desc)) fun _ =>
    fails_onPool (Pool.fails_intern _)

end Tables

/-- The label is bound in front of an instruction: every mark of it, so also the last one, which
counts, has an executed instruction somewhere behind it. -/
structure Label.InFrontOfCode (insns : List Insn) (x : Label) : Prop where
  bound : Insn.label x ∈ insns
  followed : ∀ before after, insns = before ++ .label x :: after →
    ∃ i ∈ after, i.isExecuted = true

theorem Label.inFrontOfCode_concat {insns : List Insn} {last : Insn} {x : Label}
    (executed : last.isExecuted = true) (bound : Insn.label x ∈ insns) :
    x.InFrontOfCode (insns ++ [last]) where
  bound := List.mem_append_left _ bound
  followed before after split := by
    refine ⟨last, ?_, executed⟩
    rcases List.eq_nil_or_concat after with rfl | ⟨after, i, rfl⟩
    · have same := (List.append_inj' split rfl).2
      rw [(List.cons_eq_cons.1 same).1] at executed
      cases executed
    · rw [List.concat_eq_append] at split ⊢
      rw [← List.cons_append, ← List.append_assoc] at split
      have same := (List.append_inj' split rfl).2
      rw [(List.cons_eq_cons.1 same).1]
      exact List.mem_append_right _ (List.mem_singleton_self i)

namespace Layout

/-- Why a layout cannot be written. -/
inductive Unwritable (insns : List Insn) : WriteError → Prop where
  | poolOverflow : Unwritable insns .poolOverflow
  | descriptor (m : MemberRef) (ofInterface : Bool) (cause : FormatError)
      (mem : .method Opcode.invokeinterface m ofInterface ∈ insns)
      (h : MethodDescriptor.parse m.desc = .error cause) : Unwritable insns (.format cause)

variable {insns : List Insn} {l : Layout}

theorem Laid.inside (h : Laid insns l) {x : Label} (front : x.InFrontOfCode insns) {n : Nat}
    (found : l.positions.find? x = some n) : n < l.length := by
  obtain ⟨p, mem, label, rfl⟩ := h.mem_of_find? found
  obtain ⟨before, after, split⟩ := List.append_of_mem mem
  have chain := h.chain
  rw [split, chain_append] at chain
  obtain ⟨_, _, here, rest⟩ := chain
  have marks := h.insns
  rw [split, List.map_append, List.map_cons, label] at marks
  obtain ⟨i, behind, executed⟩ := front.followed _ _ marks.symm
  obtain ⟨q, hq, rfl⟩ := List.mem_map.1 behind
  have bounds := rest.bounds hq
  have room := Placed.size_pos executed
  omega

theorem Laid.place_eq_ok (h : Laid insns l) {x : Label} (bound : Insn.label x ∈ insns) :
    ∃ n, l.positions.place x = .ok n := by
  obtain ⟨n, found⟩ := h.find?_of_mem bound
  exact ⟨n, Positions.place_eq_ok.2 found⟩

theorem Laid.offset32_eq_ok (h : Laid insns l) {x : Label} (bound : Insn.label x ∈ insns)
    (pc : Nat) : ∃ bytes, l.offset32 pc x = .ok bytes := by
  obtain ⟨n, place⟩ := h.place_eq_ok bound
  exact ⟨_, by rw [offset32, distance, place]; rfl⟩

theorem offset32_eq_error {pc : Nat} {x : Label} {e : WriteError}
    (fails : l.offset32 pc x = .error e) :
    l.positions.find? x = none ∧ e = .unboundLabel x := by
  rw [offset32, distance, Positions.place] at fails
  cases found : l.positions.find? x with
  | none =>
    rw [found] at fails
    cases fails
    exact ⟨rfl, rfl⟩
  | some n =>
    rw [found] at fails
    cases fails

theorem fits_of_near {p : Placed} {op : Opcode} {x : Label} {n : Nat} (jump : p.insn = .jump op x)
    (short : ¬ op.isWideJump = true) (near : l.farDistance p = .ok none)
    (found : l.positions.find? x = some n) : fitsInt16 ((n : Int) - p.offset) = true := by
  unfold farDistance at near
  rw [jump] at near
  dsimp only at near
  rw [if_neg short, Positions.place_eq_ok.2 found] at near
  have none : (if fitsInt16 ((n : Int) - p.offset) then none
      else some ((n : Int) - p.offset)) = none := Except.ok.inj near
  split at none
  · assumption
  · cases none

theorem offset16_eq_error {p : Placed} {op : Opcode} {x : Label} {e : WriteError}
    (jump : p.insn = .jump op x) (short : ¬ op.isWideJump = true)
    (near : l.farDistance p = .ok none) (fails : l.offset16 p.offset x = .error e) :
    l.positions.find? x = none ∧ e = .unboundLabel x := by
  cases found : l.positions.find? x with
  | none =>
    rw [offset16, distance, Positions.place, found] at fails
    cases fails
    exact ⟨rfl, rfl⟩
  | some n =>
    rw [offset16, distance, Positions.place_eq_ok.2 found] at fails
    change (if fitsInt16 ((n : Int) - p.offset) then _ else _) = _ at fails
    rw [if_pos (fits_of_near jump short near found)] at fails
    cases fails

theorem emitPair_eq_error {pc : Nat} {pair : Int32 × Label} {e : WriteError}
    (fails : l.emitPair pc pair = .error e) :
    l.positions.find? pair.2 = none ∧ e = .unboundLabel pair.2 := by
  rw [emitPair] at fails
  cases written : l.offset32 pc pair.2 with
  | error e' =>
    rw [written] at fails
    cases fails
    exact offset32_eq_error written
  | ok target =>
    rw [written] at fails
    cases fails

/-- Writing an instruction that is no far branch stops for want of room in the pool, at a malformed
descriptor or at a label that is bound nowhere. -/
theorem fails_emitInsn {E : WriteError → Prop} {p : Placed} (full : E .poolOverflow)
    (malformed : ∀ m ofInterface cause, p.insn = .method Opcode.invokeinterface m ofInterface →
      MethodDescriptor.parse m.desc = .error cause → E (.format cause))
    (unbound : ∀ x ∈ p.insn.targets, l.positions.find? x = none → E (.unboundLabel x))
    (near : l.farDistance p = .ok none) : FailsOnly (l.emitInsn p) E := by
  have room {α : Type} {m : Tables.Growth α} (hm : FailsOnly m (· = .poolOverflow)) :
      FailsOnly m E := hm.mono fun e he => he ▸ full
  have offset {x : Label} (mem : x ∈ p.insn.targets) (e : WriteError)
      (fails : l.positions.find? x = none ∧ e = .unboundLabel x) : E e :=
    fails.2 ▸ unbound x mem fails.1
  obtain ⟨pc, insn, index⟩ := p
  cases insn with
  | typeOp op name | newArrays name dims =>
    exact .bind (room (Tables.fails_onPool (Pool.fails_internClass _))) fun _ => .pure
  | field op m =>
    exact .bind (room (Tables.fails_onPool (Pool.fails_internField _))) fun _ => .pure
  | callSite name desc b =>
    exact .bind (room (Tables.fails_internCallSite _ _ _)) fun _ => .pure
  | method op m ofInterface =>
    refine .bind (room (Tables.fails_onPool (Pool.fails_internMethod _ _))) fun i => ?_
    split
    · rename_i isInterface
      subst isInterface
      refine .bind (.lift fun e failed => ?_) fun d => .pure
      cases parsed : MethodDescriptor.parse m.desc with
      | error cause =>
        rw [parsed] at failed
        cases failed
        exact malformed m ofInterface cause rfl parsed
      | ok d =>
        rw [parsed] at failed
        cases failed
    · exact .pure
  | ldc v =>
    cases index with
    | none => exact .throw full
    | some i => exact .pure
  | jump op x =>
    have target : x ∈ (Insn.jump op x).targets := List.mem_singleton_self x
    dsimp only [emitInsn]
    split
    · exact .bind (.lift fun e fails => offset target e (offset32_eq_error fails)) fun _ => .pure
    · rename_i short
      exact .bind (.lift fun e fails =>
        offset target e (offset16_eq_error rfl short near fails)) fun _ => .pure
  | tableSwitch fallback low high targets =>
    refine .bind (.lift fun e fails => ?_) fun _ => .bind (.lift fun e fails => ?_) fun _ => .pure
    · exact offset (List.mem_cons_self ..) e (offset32_eq_error fails)
    · obtain ⟨x, mem, fails⟩ := exists_error_of_mapM fails
      exact offset (List.mem_cons_of_mem _ mem) e (offset32_eq_error fails)
  | lookupSwitch fallback pairs =>
    refine .bind (.lift fun e fails => ?_) fun _ => .bind (.lift fun e fails => ?_) fun _ => .pure
    · exact offset (List.mem_cons_self ..) e (offset32_eq_error fails)
    · obtain ⟨pair, mem, fails⟩ := exists_error_of_mapM fails
      rw [(sortOn_perm _ pairs).mem_iff] at mem
      exact offset (List.mem_cons_of_mem _ (List.mem_map_of_mem mem)) e (emitPair_eq_error fails)
  | _ => exact .pure

theorem Laid.fails_emitInsn (h : Laid insns l) {p : Placed} (mem : p ∈ l.placed)
    (bound : ∀ x ∈ p.insn.targets, Insn.label x ∈ insns)
    (near : l.farDistance p = .ok none) : FailsOnly (l.emitInsn p) (Unwritable insns) := by
  have listed : p.insn ∈ insns := h.insns ▸ List.mem_map_of_mem mem
  refine Layout.fails_emitInsn .poolOverflow (fun m ofInterface cause same malformed => ?_)
    (fun x target unbound => ?_) near
  · exact .descriptor m ofInterface cause (same ▸ listed) malformed
  · obtain ⟨n, found⟩ := h.find?_of_mem (bound x target)
    rw [found] at unbound
    cases unbound

/-- Instructions without a far branch are written to a code array of the length laid out, which
reads back as the executed ones, in order and at their offsets. The tables may have grown between
the two steps. -/
theorem decode_emit {s t t' : Tables} (known : s.WellFormed Limits.none)
    (shaped : ∀ i ∈ insns, i.Shaped) (resolvable : ∀ i ∈ insns, i.Resolvable)
    (front : ∀ i ∈ insns, ∀ x ∈ i.targets, x.InFrontOfCode insns)
    (laidOut : ofInsns insns s = (.ok l, t)) (near : ∀ p ∈ l.placed, l.farDistance p = .ok none)
    (fits : l.length ≤ 65535) (known' : t'.WellFormed Limits.none) (later : t.Extended t') :
    Laid insns l ∧
      match l.emit t' with
      | (.ok bytes, u) => bytes.length = l.length ∧
        InsnDecode.decode u.pool u.bootstraps bytes = .ok (decodedOf l.positions.moved l.placed)
      | (.error e, _) => Unwritable insns e := by
  obtain ⟨_, _, sound⟩ :=
    grows_ofInsns (fun i _ => Insn.within_none i) s _ t known laidOut
  have valid := sound l rfl t' later
  have laid := valid.toLaid
  have listed : ∀ p ∈ l.placed, p.insn ∈ insns := fun p hp =>
    laid.insns ▸ List.mem_map_of_mem hp
  refine ⟨laid, ?_⟩
  rcases run : l.emit t' with ⟨e | bytes, u⟩
  · have each : ∀ p ∈ l.placed, FailsOnly (l.emitInsn p) (Unwritable insns) := fun p hp =>
      laid.fails_emitInsn hp (fun x hx => (front _ (listed p hp) x hx).bound) (near p hp)
    exact FailsOnly.bind (.mapM each) (fun _ => .pure) t' e u run
  · have inside : ∀ p ∈ l.placed, l.TargetsInside p.insn := fun p hp x hx n found =>
      laid.inside (front _ (listed p hp) x hx) found
    obtain ⟨_, grown, read⟩ := grows_emit (fun p hp => shaped _ (listed p hp))
      (fun p _ => Insn.within_none p.insn) (fun p hp => resolvable _ (listed p hp)) inside
      laid.chain fits t' _ u known' run
    have valid_end := sound l rfl u (Growing.trans t t' u later grown)
    exact read bytes rfl u (Growing.refl u) valid_end.sound

/-- Wide forms, a padded switch with keys out of order, and branches back and forth. -/
def switchLoop : List Insn :=
  [.ldc (.string "a"), .label ⟨1⟩, .var Opcode.iload 300,
    .lookupSwitch ⟨2⟩ [(5, ⟨1⟩), (-1, ⟨2⟩)], .line 7, .label ⟨2⟩, .iinc 1 200,
    .jump Opcode.gotoW ⟨1⟩, .method Opcode.invokeinterface ⟨"I", "m", "(J)V"⟩ true,
    .simple Opcode.returnVoid]

def switchLoopRead : List (Nat × Insn) :=
  [(0, .ldc (.string "a")), (2, .var Opcode.iload 300),
    (6, .lookupSwitch ⟨32⟩ [(-1, ⟨32⟩), (5, ⟨2⟩)]), (32, .iinc 1 200), (38, .jump Opcode.goto ⟨2⟩),
    (43, .method Opcode.invokeinterface ⟨"I", "m", "(J)V"⟩ true), (48, .simple Opcode.returnVoid)]

theorem decode_emit_switchLoop : ∃ l t bytes u,
    ofInsns switchLoop ⟨Pool.empty, BootstrapTable.empty⟩ = (.ok l, t) ∧
      l.emit t = (.ok bytes, u) ∧ bytes.length = 49 ∧
      InsnDecode.decode u.pool u.bootstraps bytes = .ok switchLoopRead := by
  have computed : (match ofInsns switchLoop ⟨Pool.empty, BootstrapTable.empty⟩ with
      | (.error _, _) => false
      | (.ok l, t) => l.length = 49 ∧ (∀ p ∈ l.placed, l.farDistance p = .ok none) ∧
        decodedOf l.positions.moved l.placed = switchLoopRead ∧
        (l.emit t).1.isOk = true : Bool) = true := by
    decide +kernel
  split at computed
  · cases computed
  rename_i l t laidOut
  obtain ⟨length, near, decoded, written⟩ := of_decide_eq_true computed
  have known : Tables.WellFormed Limits.none ⟨Pool.empty, BootstrapTable.empty⟩ :=
    ⟨Pool.wellFormed_empty, Nat.zero_le _, fun _ h => nomatch h⟩
  have shaped : ∀ i ∈ switchLoop, i.Shaped := by
    simp only [switchLoop, List.forall_mem_cons, List.not_mem_nil, false_implies, implies_true,
      Insn.Shaped]
    decide
  have resolvable : ∀ i ∈ switchLoop, i.Resolvable := by
    simp only [switchLoop, List.forall_mem_cons, Insn.Resolvable]
    simp [Loadable.Resolvable]
  have front : ∀ i ∈ switchLoop, ∀ x ∈ i.targets, x.InFrontOfCode switchLoop := by
    have bound : ∀ i ∈ switchLoop, ∀ x ∈ i.targets, Insn.label x ∈ switchLoop.dropLast := by
      decide
    intro i hi x hx
    show x.InFrontOfCode (switchLoop.dropLast ++ [.simple Opcode.returnVoid])
    exact Label.inFrontOfCode_concat rfl (bound i hi x hx)
  obtain ⟨known', _, _⟩ := grows_ofInsns (fun i _ => Insn.within_none i) _ _ _ known laidOut
  obtain ⟨laid, read⟩ := decode_emit known shaped resolvable front laidOut near (by omega) known'
    (Growing.refl t)
  rcases run : l.emit t with ⟨e | bytes, u⟩
  · rw [run] at written
    cases written
  · rw [run] at read
    rw [decoded] at read
    exact ⟨l, t, bytes, u, laidOut, run, read.1.trans length, read.2⟩

end Layout

end ClassWeave
