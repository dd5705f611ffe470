import Mathlib.Tactic.Common
import ClassWeave.Proofs.Bootstraps.Calls
import ClassWeave.Proofs.Members

/-!
# Writing a part of a body twice

Whatever the instructions, frames and ranges of a body are: what was written of it once is written
the same again, against the tables that it left or any that extend them, and then nothing is added.
-/

set_option autoImplicit false

namespace ClassWeave

namespace Repeats

section

variable {σ α β : Type} [Growing σ]

theorem throw (e : WriteError) : Repeats (MonadExcept.throw e : GrowthOf σ α) := Grows.throw e _

theorem throw_bind (e : WriteError) (k : α → GrowthOf σ β) :
    Repeats ((MonadExcept.throw e : GrowthOf σ α) >>= k) :=
  Grows.bind (P := fun _ _ => False) (.throw e _) fun _ h => h.elim fun _ h => h.elim

theorem lift (x : Except WriteError α) : Repeats (liftM x : GrowthOf σ α) :=
  Grows.lift fun _ _ same => by rw [same]; rfl

theorem mapM {k : α → GrowthOf σ β} (hk : ∀ a, Repeats (k a)) (as : List α) :
    Repeats (as.mapM k) := by
  induction as with
  | nil =>
    rw [List.mapM_nil]
    exact .pure _
  | cons a as ih =>
    rw [List.mapM_cons]
    exact (hk a).bind fun b => ih.bind fun bs => .pure _

end

theorem className (name : String) : Repeats (Tables.className name) :=
  Tables.repeats_onPool (Pool.repeats_internClass name)

theorem utf8 (text : String) : Repeats (Tables.utf8 text) :=
  Tables.repeats_onPool (Pool.repeats_internUtf8 text)

section Frames

variable (positions : Positions)

theorem writeType (t : VType) : Repeats (StackMap.writeType positions t) := by
  cases t with
  | object name => exact (Pool.repeats_internClass name).bind fun i => .pure _
  | uninit site => exact (lift _).bind fun n => .pure _
  | _ => exact .pure _

theorem writeVTypes (types : List VType) : Repeats (StackMap.writeVTypes positions types) :=
  (mapM (writeType positions) types).bind fun _ => .pure _

theorem writeChange (distance : Nat) (before : List VType) (frame : Frame) :
    Repeats (StackMap.writeChange positions distance before frame) := by
  have full : Repeats (do
      let localTypes ← StackMap.writeVTypes positions frame.locals
      let stackTypes ← StackMap.writeVTypes positions frame.stack
      return 255 :: Bytes.be 2 distance ++ Bytes.be 2 frame.locals.length ++ localTypes ++
        Bytes.be 2 frame.stack.length ++ stackTypes) :=
    (writeVTypes positions _).bind fun _ => (writeVTypes positions _).bind fun _ => .pure _
  unfold StackMap.writeChange
  dsimp only
  split
  · split
    · exact .pure _
    · split
      · exact .pure _
      · split
        · exact (writeVTypes positions _).bind fun more => .pure _
        · exact full
  · split
    · exact (writeType positions _).bind fun top => .pure _
    · exact full
  · exact full

theorem writeFrames (before : Option Nat) (locals : List VType) (frames : List (Nat × Frame))
    (done : List Bytes) : Repeats (StackMap.writeFrames positions before locals frames done) := by
  induction frames generalizing before locals done with
  | nil => exact .pure _
  | cons g rest ih => exact (writeChange positions _ locals g.2).bind fun _ => ih _ _ _

theorem encodeStackMap (initial : List VType) (frames : List (Nat × Frame)) :
    Repeats (StackMap.encode positions initial frames) :=
  (writeFrames positions none initial frames []).bind fun _ => .pure _

end Frames

section Insns

variable (l : Layout)

theorem emitMethod (op : Opcode) (m : MemberRef) (ofInterface : Bool) :
    Repeats (Layout.emitMethod op m ofInterface) := by
  refine (Tables.repeats_onPool (Pool.repeats_internMethod m ofInterface)).bind fun i => ?_
  split
  · exact (lift _).bind fun d => .pure _
  · exact .pure _

theorem emitInsn (p : Placed) : Repeats (l.emitInsn p) := by
  obtain ⟨pc, insn, index⟩ := p
  cases insn with
  | label x => exact .pure _
  | line n => exact .pure _
  | simple op => exact .pure _
  | intOp op v => exact .pure _
  | var op slot => exact .pure _
  | iinc slot delta => exact .pure _
  | typeOp op name => exact (className name).bind fun i => .pure _
  | field op m =>
    exact (Tables.repeats_onPool (Pool.repeats_internField m)).bind fun i => .pure _
  | method op m ofInterface => exact emitMethod op m ofInterface
  | callSite name desc b =>
    exact (Tables.Request.repeats_intern (.callSite name desc b)).bind fun i => .pure _
  | ldc v =>
    cases index with
    | none => exact .throw _
    | some i => exact .pure _
  | jump op target =>
    dsimp only [Layout.emitInsn]
    split
    · exact (lift _).bind fun bytes => .pure _
    · exact (lift _).bind fun bytes => .pure _
  | tableSwitch fallback low high targets =>
    exact (lift _).bind fun first => (lift _).bind fun rest => .pure _
  | lookupSwitch fallback pairs =>
    exact (lift _).bind fun first => (lift _).bind fun rest => .pure _
  | newArrays name dims => exact (className name).bind fun i => .pure _

theorem emit : Repeats l.emit := (mapM (emitInsn l) l.placed).bind fun _ => .pure _

end Insns

section Bodies

open ClassFile

variable (positions : Positions) (t : BodyTarget)

theorem encodeHandler (h : Handler) : Repeats (ClassFile.encodeHandler positions h) := by
  refine (lift _).bind fun start => (lift _).bind fun finish => ?_
  split
  · exact .pure _
  · refine (lift _).bind fun target => ?_
    dsimp only
    split
    · exact (className _).bind fun i => .pure _
    · exact (Repeats.pure _).bind fun i => .pure _

theorem encodeFrames (c : Code) : Repeats (ClassFile.encodeFrames t positions c) := by
  unfold ClassFile.encodeFrames
  dsimp only
  split
  · exact .pure _
  · refine (lift _).bind fun placed => (lift _).bind fun d => ?_
    exact (Tables.repeats_onPool (encodeStackMap positions _ placed)).bind fun data => .pure _

theorem encodeLocals (name : String) (locals : List LocalVariable) :
    Repeats (ClassFile.encodeLocals positions name locals) := by
  have each : ∀ v, Repeats (encodeLocal positions v) := fun v =>
    (lift _).bind fun start => (lift _).bind fun finish => (utf8 v.name).bind fun i =>
      (utf8 v.desc).bind fun j => .pure _
  unfold ClassFile.encodeLocals
  split
  · exact .pure _
  · exact (mapM each locals).bind fun entries => .pure _

theorem encodeAttributes (attributes : List Attribute) :
    Repeats (ClassFile.encodeAttributes attributes) := by
  have each : ∀ a, Repeats (encodeAttribute a) := fun a => (utf8 a.name).bind fun i => .pure _
  exact (mapM each attributes).bind fun written => .pure _

theorem encodeField (f : Field) : Repeats (ClassFile.encodeField f) :=
  (utf8 f.name).bind fun _ => (utf8 f.desc).bind fun _ =>
    (encodeAttributes f.attributes).bind fun _ => .pure _

theorem encodeSettled (c : Code) (l : Layout) : Repeats (t.encodeSettled c l) := by
  unfold BodyTarget.encodeSettled
  dsimp only
  split
  · exact .throw_bind _ _
  · refine (emit l).bind fun bytes => (mapM (encodeHandler _) _).bind fun handlers => ?_
    refine (encodeFrames _ t c).bind fun frames => (encodeLocals _ _ _).bind fun plain => ?_
    exact (encodeLocals _ _ _).bind fun generic => (encodeAttributes _).bind fun _ => .pure _

end Bodies

end Repeats

namespace ClassFile

theorem extending_traceBody (h : Hierarchy) (owner : String) (major : UInt16) (m : Method) :
    Grows Limits.none (traceBody h owner major m) fun _ _ => True := by
  unfold traceBody
  split
  · refine .bind (BodyTarget.grows_settle fun i _ => i.within_none) fun s _ => ?_
    refine .bind (Repeats.encodeSettled _ s.1 s.2) fun bytes _ => ?_
    exact .pure fun _ _ _ => True.intro
  · exact .pure fun _ => True.intro

end ClassFile

end ClassWeave
