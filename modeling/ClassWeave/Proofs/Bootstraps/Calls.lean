import Mathlib.Tactic.Common
import ClassWeave.Proofs.Decoding.Classes
import ClassWeave.Proofs.Pool.Calls

/-!
# Bootstrap methods in use

The two tables of a class start out empty or read from bytes and go through operations that intern
constants, call sites and bootstrap methods, some of which fail. The reader finds behind an index
what the index was given out for, and goes on finding behind every index what it found there
before. Asking again gives the same index and leaves both tables alone.
-/

set_option autoImplicit false

namespace ClassWeave

def Limits.counted : Limits := ⟨fun _ => True, fun n => n ≤ 65535⟩

theorem Bootstrap.within_none (b : Bootstrap) : b.Within Limits.none :=
  ⟨⟨trivial, trivial, trivial⟩, trivial, fun x _ => x.within_none⟩

theorem Repeats.pure {σ α : Type} [Growing σ] (a : α) : Repeats (Pure.pure a : GrowthOf σ α) :=
  Grows.pure fun _ => rfl

theorem Pool.repeats_internHandle [Growing Pool] [Interning Limits.none] (h : Handle) :
    Repeats (internHandle h) := by
  unfold internHandle
  split
  · exact (repeats_internField h.member).bind fun _ => repeats_intern _
  · exact (repeats_internMethod h.member h.ofInterface).bind fun _ => repeats_intern _

namespace BootstrapTable

theorem callSite_of_extended {s f : Tables} (h : Tables.Extended s f) {i : UInt16} {x : Insn}
    (hx : callSite s.bootstraps s.pool i = .ok x) : callSite f.bootstraps f.pool i = .ok x := by
  obtain ⟨c, hc, hx⟩ := bind_ok_iff.1 hx
  refine bind_ok_iff.2 ⟨c, Pool.get_of_extends h.pool hc, ?_⟩
  cases c with
  | callSite entry nt =>
    obtain ⟨⟨name, desc⟩, hn, hx⟩ := bind_ok_iff.1 hx
    obtain ⟨b, hb, hx⟩ := bind_ok_iff.1 hx
    refine bind_ok_iff.2 ⟨_, Pool.nameAndType_of_extends h.pool hn, ?_⟩
    exact bind_ok_iff.2 ⟨b, bootstrapAt_of_extended h hb, hx⟩
  | _ => cases hx

end BootstrapTable

namespace Tables

theorem repeats_onPool [Growing Pool] [Growing Tables] [Interning Limits.none] {α : Type}
    {step : Pool.Growth α} (h : Repeats step) : Repeats (onPool step) := by
  refine (grows_onPool h).mono fun f a again => ?_
  show ((step f.pool).1, (⟨(step f.pool).2, f.bootstraps⟩ : Tables)) = _
  rw [again]

theorem repeats_internEntry [Growing Pool] [Growing Tables] [Interning Limits.none]
    (e : BootstrapEntry) : Repeats (internEntry e) := by
  refine (Interning.entry trivial).mono fun f i found => ?_
  show internEntry e f = (.ok i, f)
  unfold internEntry
  dsimp only
  rw [found]
  simp

mutual

theorem repeats_internLoadable [Growing Pool] [Growing Tables] [Interning Limits.none]
    (v : Loadable) : Repeats (internLoadable v) := by
  have plain (c : Constant) : Repeats (onPool (Pool.intern c)) :=
    repeats_onPool (Pool.repeats_intern c)
  cases v with
  | int v =>
    rw [internLoadable]
    exact plain _
  | float bits =>
    rw [internLoadable]
    exact plain _
  | long v =>
    rw [internLoadable]
    exact plain _
  | double bits =>
    rw [internLoadable]
    exact plain _
  | string text =>
    rw [internLoadable]
    exact repeats_onPool (Pool.repeats_internString text)
  | type name =>
    rw [internLoadable]
    exact repeats_onPool (Pool.repeats_internClass name)
  | methodType desc =>
    rw [internLoadable]
    exact (repeats_onPool (Pool.repeats_internUtf8 desc)).bind fun _ => plain _
  | handle h =>
    rw [internLoadable]
    exact repeats_onPool (Pool.repeats_internHandle h)
  | dynamic name desc h args =>
    rw [internLoadable]
    refine (repeats_onPool (Pool.repeats_internHandle h)).bind fun _ => ?_
    refine (repeats_internLoadables args).bind fun _ => ?_
    refine (repeats_internEntry _).bind fun _ => ?_
    exact (repeats_onPool (Pool.repeats_internNameAndType name desc)).bind fun _ => plain _

theorem repeats_internLoadables [Growing Pool] [Growing Tables] [Interning Limits.none]
    (vs : List Loadable) : Repeats (internLoadables vs) := by
  cases vs with
  | nil =>
    rw [internLoadables]
    exact .pure _
  | cons v vs =>
    rw [internLoadables]
    refine (repeats_internLoadable v).bind fun _ => ?_
    exact (repeats_internLoadables vs).bind fun _ => .pure _

end

theorem repeats_internBootstrap [Growing Pool] [Growing Tables] [Interning Limits.none]
    (b : Bootstrap) : Repeats (internBootstrap b) := by
  refine (repeats_onPool (Pool.repeats_internHandle b.handle)).bind fun _ => ?_
  exact (repeats_internLoadables b.args).bind fun _ => repeats_internEntry _

/-- What an instruction asks the tables for. -/
inductive Request where
  | constant (v : Loadable)
  | callSite (name desc : String) (b : Bootstrap)

namespace Request

def intern : Request → Growth UInt16
  | .constant v => internLoadable v
  | .callSite name desc b => internCallSite name desc b

def FoundAt (t : Tables) (i : UInt16) : Request → Prop
  | .constant v => t.bootstraps.loadable t.pool i = .ok v
  | .callSite name desc b => t.bootstraps.callSite t.pool i = .ok (.callSite name desc b)

/-- Field handles carry no interface flag, and dynamic constants nest as deep as the reader
follows them. -/
def Resolvable : Request → Prop
  | .constant v => v.Resolvable (BootstrapTable.nestingLimit + 1)
  | .callSite _ _ b => b.Resolvable BootstrapTable.nestingLimit

def Within (limits : Limits) : Request → Prop
  | .constant v => v.Within limits
  | .callSite name desc b => limits.text name ∧ limits.text desc ∧ b.Within limits

theorem within_none (q : Request) : q.Within Limits.none := by
  cases q with
  | constant v => exact v.within_none
  | callSite name desc b => exact ⟨trivial, trivial, b.within_none⟩

theorem grows_intern [Growing Pool] [Growing Tables] {limits : Limits} [Interning limits]
    {q : Request} (hq : q.Within limits) :
    Grows limits q.intern fun f i => q.Resolvable → q.FoundAt f i := by
  cases q with
  | constant v => exact (grows_internLoadable v hq).mono fun f i found => found _
  | callSite name desc b => exact grows_internCallSite hq.1 hq.2.1 hq.2.2

theorem repeats_intern [Growing Pool] [Growing Tables] [Interning Limits.none] (q : Request) :
    Repeats q.intern := by
  cases q with
  | constant v => exact repeats_internLoadable v
  | callSite name desc b =>
    refine (repeats_internBootstrap b).bind fun _ => ?_
    refine (repeats_onPool (Pool.repeats_internNameAndType name desc)).bind fun _ => ?_
    exact repeats_onPool (Pool.repeats_intern _)

theorem foundAt_of_extended {s f : Tables} (h : Extended s f) {q : Request} {i : UInt16}
    (found : q.FoundAt s i) : q.FoundAt f i := by
  cases q with
  | constant v => exact BootstrapTable.loadable_of_extended h found
  | callSite name desc b => exact BootstrapTable.callSite_of_extended h found

end Request

/-- What is done to the tables of a class. -/
inductive Operation where
  | pool (call : Pool.Call)
  | bootstrap (b : Bootstrap)
  | request (q : Request)

namespace Operation

def run : Operation → Growth UInt16
  | .pool call => onPool call.run
  | .bootstrap b => internBootstrap b
  | .request q => q.intern

def Within (limits : Limits) : Operation → Prop
  | .pool _ => True
  | .bootstrap b => b.Within limits
  | .request q => q.Within limits

theorem within_none (op : Operation) : op.Within Limits.none := by
  cases op with
  | pool call => trivial
  | bootstrap b => exact b.within_none
  | request q => exact q.within_none

end Operation

/-- The tables after some operations, whether or not they succeed. -/
def after (t : Tables) (ops : List Operation) : Tables := ops.foldl (fun t op => (op.run t).2) t

/-- The tables of a class before the first operation. -/
structure Fresh (t : Tables) : Prop where
  pool : t.pool.Fresh
  bootstraps : t.bootstraps = .empty ∨ ∃ bytes, BootstrapTable.parse bytes = .ok t.bootstraps

theorem Fresh.wellFormed {t : Tables} (h : Fresh t) : t.bootstraps.WellFormed Limits.counted := by
  rcases h.bootstraps with same | ⟨bytes, stored⟩
  · rw [same]
    exact ⟨Nat.zero_le _, List.forall_mem_nil _⟩
  · refine ClassFile.wellFormed_parse stored fun e he => ?_
    exact Nat.le_of_lt_succ (ClassFile.arity_of_parse stored e he)

section

local instance growingPool : Growing Pool := Pool.growingInUse

local instance growingInUse : Growing Tables where
  Within limits t := t.pool.InUse ∧ t.bootstraps.WellFormed limits
  Extends := Extended
  refl := growing.refl
  trans := growing.trans

instance interningInUse {limits : Limits} : Interning limits where
  grows hc := Pool.interningInUse.grows hc
  onPool h := by
    intro s r t hs run
    cases run
    obtain ⟨hp, extends_, hP⟩ := h s.pool _ _ hs.1 rfl
    refine ⟨⟨hp, hs.2⟩, ⟨extends_, Indexed.Grown.refl _⟩, fun a ha f hf => ?_⟩
    exact hP a ha f.pool hf.pool
  entry {e} he := by
    intro s r t hs run
    have step : (internEntry e s).2 = t := congrArg Prod.snd run
    have answer : ∀ i, r = .ok i → ∀ f, Extends t f →
        f.bootstraps.find? (e.handle.toNat :: e.args.map UInt16.toNat) = some i.toNat := by
      rintro i rfl f later
      exact Indexed.Grown.find? later.bootstraps (find?_of_internEntry hs.2.size_le run)
    rcases internEntry_cases e s with same | ⟨more, fits⟩
    · cases step.symm.trans same
      exact ⟨hs, Growing.refl s, answer⟩
    · cases step.symm.trans more
      exact ⟨⟨hs.1, wellFormed_push hs.2 fits he⟩, ⟨Indexed.Grown.refl _, Indexed.grown_push _ _⟩,
        answer⟩

theorem Operation.grows_run {limits : Limits} {op : Operation} (hop : op.Within limits) :
    Grows limits op.run fun _ _ => True := by
  cases op with
  | pool call =>
    have grows : Grows limits call.run fun _ _ => True := fun p r q hp run =>
      (call.grows_run.mono fun _ _ _ => trivial) p r q hp run
    exact grows_onPool grows
  | bootstrap b => exact (grows_internBootstrap hop).mono fun _ _ _ => trivial
  | request q => exact (q.grows_intern hop).mono fun _ _ _ => trivial

theorem within_after {limits : Limits} {t : Tables} (ht : Within limits t) {ops : List Operation}
    (within : ∀ op ∈ ops, op.Within limits) :
    Within limits (t.after ops) ∧ Extended t (t.after ops) := by
  induction ops generalizing t with
  | nil => exact ⟨ht, Growing.refl t⟩
  | cons op ops ih =>
    obtain ⟨here, there⟩ := List.forall_mem_cons.1 within
    obtain ⟨hu, grown, _⟩ := Operation.grows_run here t _ _ ht rfl
    obtain ⟨last, rest⟩ := ih hu there
    exact ⟨last, Growing.trans _ _ _ grown rest⟩

/-- Whatever operations went before, and whatever follow: nothing that the reader found is lost,
also when a request fails; behind the index that a request is answered with the reader finds what
was asked for, unless it cannot be read at all; and asked again, it gives the same index and adds
nothing. The stored table reads back as long as no operation brought more arguments than a count
holds. -/
theorem interning_after {start : Tables} (fresh : Fresh start) (ops : List Operation) :
    (∀ q : Request,
      (∀ (r : Request) (i : UInt16), r.FoundAt (start.after ops) i →
        r.FoundAt (q.intern (start.after ops)).2 i) ∧
      ∀ i t, q.intern (start.after ops) = (.ok i, t) → ∀ more,
        (q.Resolvable → q.FoundAt (t.after more) i) ∧
        q.intern (t.after more) = (.ok i, t.after more)) ∧
    ((∀ op ∈ ops, op.Within Limits.counted) →
      BootstrapTable.parse (start.after ops).bootstraps.encode =
        .ok (start.after ops).bootstraps) := by
  have pool := fresh.pool.wellFormed.inUse
  have unlimited : Within Limits.none start :=
    ⟨pool, fresh.wellFormed.size_le, fun _ _ => trivial⟩
  have before := (within_after unlimited fun op (_ : op ∈ ops) => op.within_none).1
  refine ⟨fun q => ⟨fun r i found => ?_, fun i t run more => ?_⟩, fun within => ?_⟩
  · obtain ⟨_, grown, _⟩ := Request.grows_intern q.within_none _ _ _ before rfl
    exact Request.foundAt_of_extended grown found
  · obtain ⟨ht, _, found⟩ := Request.grows_intern q.within_none _ _ _ before run
    obtain ⟨_, _, repeated⟩ := q.repeats_intern _ _ _ before run
    have later := (within_after ht fun op (_ : op ∈ more) => op.within_none).2
    exact ⟨found i rfl _ later, repeated i rfl _ later⟩
  · have counted := (within_after ⟨pool, fresh.wellFormed⟩ within).1.2
    refine BootstrapTable.parse_encode (Nat.lt_succ_of_le counted.size_le) fun e he => ?_
    exact Nat.lt_succ_of_le (counted.arities e he)

end

def storedEntries : Bytes := [0, 2, 0, 9, 0, 0, 0, 9, 0, 0]

/-- A dynamic constant whose bootstrap method takes another as its argument. -/
def nestedConstant : Loadable :=
  .dynamic "d" "I" ⟨6, ⟨"B", "b", "()I"⟩, false⟩
    [.dynamic "e" "J" ⟨6, ⟨"B", "b", "()I"⟩, true⟩ [.string "a"]]

/-- A text, and a call site with the inner bootstrap method, less the arguments. -/
def laterOperations : List Operation :=
  [.pool (.utf8 "b"), .request (.callSite "c" "()I" ⟨⟨6, ⟨"B", "b", "()I"⟩, true⟩, []⟩)]

/-- On a class with a pool and a table of its own the inner part of the constant takes the third
entry of the table and the outer part the fourth. The constant is still read back when another
entry has been added. -/
theorem interning_nestedConstant : ∃ start t, Fresh start ∧ start.bootstraps.size = 2 ∧
    (Request.constant nestedConstant).intern start = (.ok 23, t) ∧ t.bootstraps.size = 4 ∧
    (t.after laterOperations).bootstraps.size = 5 ∧
    (Request.constant nestedConstant).FoundAt (t.after laterOperations) 23 ∧
    (Request.constant nestedConstant).intern (t.after laterOperations) =
      (.ok 23, t.after laterOperations) ∧
    BootstrapTable.parse t.bootstraps.encode = .ok t.bootstraps := by
  have computed : ((Pool.read (Cursor.start Pool.twiceStored)).toOption.any fun r =>
      (BootstrapTable.parse storedEntries).toOption.any fun table =>
        let made := (Request.constant nestedConstant).intern ⟨r.1, table⟩
        table.size = 2 ∧ made.1 = .ok 23 ∧ made.2.bootstraps.size = 4 ∧
          (made.2.after laterOperations).bootstraps.size = 5) = true := by
    decide +kernel
  obtain ⟨⟨p, c⟩, stored, computed⟩ := exists_ok_of_any computed
  obtain ⟨table, entries, computed⟩ := exists_ok_of_any computed
  obtain ⟨two, answer, four, five⟩ := of_decide_eq_true computed
  have fresh : Fresh ⟨p, table⟩ := ⟨.read _ _ stored, .inr ⟨_, entries⟩⟩
  have run : (Request.constant nestedConstant).intern ⟨p, table⟩ = (.ok 23, _) :=
    Prod.ext answer rfl
  obtain ⟨found, repeated⟩ := ((interning_after fresh []).1 (.constant nestedConstant)).2 _ _ run
    laterOperations
  have reads := (interning_after fresh [.request (.constant nestedConstant)]).2
  have resolvable : (Request.constant nestedConstant).Resolvable := by
    simp [Request.Resolvable, nestedConstant, Loadable.Resolvable, Loadable.AllResolvable,
      BootstrapTable.nestingLimit, Handle.Plain, Handle.isField]
  have counted : (Request.constant nestedConstant).Within Limits.counted := by
    simp [Request.Within, nestedConstant, Loadable.Within, Loadable.AllWithin, MemberRef.Within,
      Limits.counted]
  refine ⟨_, _, fresh, two, run, four, five, found resolvable, repeated, ?_⟩
  exact reads (List.forall_mem_singleton.2 counted)

end Tables

end ClassWeave
