import Mathlib.Data.List.Forall2
import Mathlib.Tactic.Common
import ClassWeave.Proofs.Body.Rewritten
import ClassWeave.Proofs.Decoding.Classes

/-!
# Classes written as they were read

A class that was read and is written without an edit reads back as itself. Its pool and its table
of bootstrap methods may have grown, and in every body the labels move with the instructions that
they stand in front of.
-/

set_option autoImplicit false

namespace ClassWeave

/-- The body `c'` is what is kept of the body `c`, with the labels of `c` moved in their order to
offsets in a code array of some length. -/
def Code.MovedTo (c kept c' : Code) : Prop :=
  ∃ (move : Label → Label) (length : Nat),
    (∀ x y, Insn.label x ∈ c.insns → Insn.label y ∈ c.insns → x.number < y.number →
      (move x).number < (move y).number) ∧
    (∀ x, Insn.label x ∈ c.insns → (move x).number.toNat ≤ length) ∧
    c' = { kept.relabel move with nextLabel := UInt32.ofNat length + 1 }

def Code.Rewritten (keepFrames : Bool) (c c' : Code) : Prop := c.MovedTo (c.stored keepFrames) c'

/-- The tables of source lines and local variables can be counted in two bytes each. -/
structure Code.Countable (c : Code) : Prop where
  lines : c.insns.countP Insn.isLine ≤ 65535
  plain : (c.locals.filter fun v => !v.generic).length ≤ 65535
  generic : (c.locals.filter (·.generic)).length ≤ 65535

structure Method.Rewritten (keepFrames : Bool) (m m' : Method) : Prop where
  access : m'.access = m.access
  name : m'.name = m.name
  desc : m'.desc = m.desc
  attributes : m'.attributes = m.attributes
  code : Option.Rel (Code.Rewritten keepFrames) m.code m'.code

def Attribute.Rewritten (a a' : Attribute) : Prop :=
  a' = a ∨ a.name = BootstrapTable.attributeName ∧ a'.name = a.name ∧
    ∃ t t', BootstrapTable.parse a.data = .ok t ∧ BootstrapTable.parse a'.data = .ok t' ∧
      t.toList <+: t'.toList

namespace ClassFile

structure Rewritten (c c' : ClassFile) : Prop where
  minor : c'.minor = c.minor
  major : c'.major = c.major
  access : c'.access = c.access
  name : c'.name = c.name
  superName : c'.superName = c.superName
  interfaces : c'.interfaces = c.interfaces
  fields : c'.fields = c.fields
  methods : List.Forall₂ (Method.Rewritten (50 ≤ c.major)) c.methods c'.methods
  attributes : List.Forall₂ Attribute.Rewritten c.attributes c'.attributes
  pool : c.pool.toList <+: c'.pool.toList

/-- No branch has to be widened: every body is written as it stands. -/
def Unwidened (h : Hierarchy) (c : ClassFile) : Prop :=
  ∀ w, write h c = .ok w → w.bodies.map (Option.map WrittenBody.code) = c.methods.map Method.code

/-- What is asked of a class that was read for what is written of it to read back: texts that fit
their length field, tables that can be counted, method handles that say whether they refer to an
interface, and attributes for bodies and bootstrap methods that fit their length fields. -/
structure Storable (h : Hierarchy) (c : ClassFile) : Prop where
  texts : ∀ text, some (.utf8 text) ∈ c.pool.toList → (ModifiedUtf8.encode text).length ≤ 65535
  counts : ∀ m ∈ c.methods, ∀ code, m.code = some code → code.Countable
  plain : c.pool.PlainHandles
  lengths : ∀ w, write h c = .ok w → (∀ b, some b ∈ w.bodies → b.bytes.length < 4294967296) ∧
    w.tables.bootstraps.encode.length < 4294967296

def keptLimits (t : BootstrapTable) : Limits where
  text text := (ModifiedUtf8.encode text).length < 65536
  arity n := n < 65536 ∧ t.toList ≠ []

theorem names_keptLimits (t : BootstrapTable) : (keptLimits t).Names := by
  have short : ∀ name ∈ ["Code", "StackMapTable", "LineNumberTable", "LocalVariableTable",
      "LocalVariableTypeTable", BootstrapTable.attributeName],
      (ModifiedUtf8.encode name).length < 65536 := by
    decide
  exact short

theorem rewritten_withBootstraps {t last : BootstrapTable} {attributes : List Attribute}
    (known : bootstrapsOf attributes = .ok t) (grown : t.Grown last)
    (size : last.toList.length < 65536) (arity : ∀ e ∈ last.toList, e.args.length < 65536)
    (kept : last.toList ≠ [] → t.toList ≠ []) :
    List.Forall₂ Attribute.Rewritten attributes (withBootstraps last attributes) := by
  have same : ∀ as : List Attribute, List.Forall₂ Attribute.Rewritten as as := fun as =>
    List.forall₂_same.2 fun a _ => .inl rfl
  have replaced : ∀ as a, attribute? as BootstrapTable.attributeName = some a →
      BootstrapTable.parse a.data = .ok t →
      List.Forall₂ Attribute.Rewritten as (withBootstraps.replace last as) := by
    intro as a found parsed
    induction as with
    | nil => cases found
    | cons b as ih =>
      rw [withBootstraps.replace]
      split
      · rename_i named
        rw [attribute?, List.find?_cons_of_pos (by exact named)] at found
        cases found
        have again := BootstrapTable.parse_encode size arity
        exact .cons (.inr ⟨beq_iff_eq.1 named, rfl, t, last, parsed, again, grown⟩) (same as)
      · rename_i other
        rw [attribute?, List.find?_cons_of_neg (by exact other)] at found
        exact .cons (.inl rfl) (ih found)
  unfold withBootstraps
  split
  · exact same attributes
  · rename_i filled
    rw [Indexed.size_eq, List.length_eq_zero_iff] at filled
    unfold bootstrapsOf at known
    split at known
    · rename_i a found
      exact replaced attributes a found known
    · cases known
      exact absurd rfl (kept filled)

variable {limits : Limits} {t : BootstrapTable} {c : ClassFile} {h : Hierarchy}

theorem BodyParts.Sane.code_within {ctx : BodyContext} {b : BodyParts} (sane : b.Sane limits ctx) :
    b.code.Within limits where
  insns := by
    refine Moving.forall_insns (fun i mark => ?_) fun d hd => (sane.decoded.sane d hd).within
    cases i <;> first | exact True.intro | exact absurd rfl mark
  handlers e he := (sane.handlers e he).catchType
  locals v hv := (sane.tables.locals v hv).texts
  frames f hf := by
    obtain ⟨r, hr, rfl⟩ := List.mem_map.1 hf
    exact (sane.tables.frames r hr).within

theorem BodyParts.Sane.resolvable {ctx : BodyContext} {b : BodyParts} (sane : b.Sane limits ctx)
    (plain : ctx.pool.PlainHandles) : ∀ i ∈ b.code.insns, i.Resolvable := by
  refine Moving.forall_insns (fun i mark => ?_) fun d hd =>
    (sane.decoded.sane d hd).resolvable plain
  cases i <;> first | exact True.intro | exact absurd rfl mark

theorem within_of_sane (sane : c.Sane limits t)
    (entry : ∀ m ∈ c.methods, EntrySane limits (c.bodyContext t m)) : c.Within limits where
  name := sane.name
  superName := sane.superName
  interfaces := sane.interfaces.2
  fields f hf := (sane.fields.2 f hf).within
  methods m hm := by
    have known := sane.methods.2 m hm
    refine ⟨known.name, known.desc, fun a ha => (known.attributes a ha).1, fun code same => ?_⟩
    obtain ⟨b, hb, rfl⟩ := known.body (entry m hm) code same
    exact hb.code_within.insns
  attributes a ha := (sane.attributes.2 a ha).1

/-- A method that was read, whose body is written as it stands: what is written fits, and reads
back with its labels moved. -/
theorem rewritten_method {m : Method} {body : Option WrittenBody} (sane : MethodSane limits c t m)
    (entry : EntrySane limits (c.bodyContext t m)) (settles : Settles m body)
    (unwidened : body.map WrittenBody.code = m.code)
    (resolvable : ∀ code, m.code = some code → ∀ i ∈ code.insns, i.Resolvable)
    (counts : ∀ code, m.code = some code → code.Countable)
    (lengths : ∀ b, body = some b → b.bytes.length < 4294967296) :
    BodyReady limits h c.name c.major m body ∧
      Method.Rewritten (50 ≤ c.major) m (readBackMethod h c.name c.major m body) := by
  have attributeCount := sane.attributeCount
  rcases body with _ | b
  · rw [← unwidened] at attributeCount
    refine ⟨⟨⟨?_, fun a ha => (sane.attributes a ha).2, sane.names, nofun⟩, nofun, nofun⟩, rfl, rfl,
      rfl, rfl, ?_⟩
    · simpa [methodAttributes] using attributeCount
    · rw [← unwidened]
      exact .none
  · obtain ⟨code, l, bytes⟩ := b
    have same : m.code = some code := unwidened.symm
    rw [same] at attributeCount
    obtain ⟨b, hb, rfl⟩ := sane.body entry code same
    have short := settles.short _ rfl
    obtain ⟨zs, moving⟩ := exists_moving hb (settles.laid _ rfl)
    let target : BodyTarget := ⟨h, c.name, c.major, m⟩
    have moving : Moving limits (target.context ⟨c.pool, t⟩) b l zs := moving
    obtain ⟨lines, plainCount, genericCount⟩ := counts _ same
    refine ⟨⟨⟨?_, fun a ha => ?_, sane.names, fun b' same => ?_⟩,
      fun b' same => ?_, fun b' same => ?_⟩,
      rfl, rfl, rfl, rfl, ?_⟩
    · simpa [methodAttributes, Nat.add_comm] using attributeCount
    · rcases List.mem_cons.1 ha with rfl | ha
      · exact lengths _ rfl
      · exact (sane.attributes a ha).2
    · cases same
      exact moving.settledFit (resolvable _ same) (by omega) (by omega) (by omega)
    · cases same
      refine Moving.forall_insns (fun i mark => ?_) fun d hd => (hb.decoded.sane d hd).shaped
      cases i <;> first | exact True.intro | exact absurd rfl mark
    · cases same
      exact hb.code_within
    · rw [same]
      refine .some ⟨l.positions.moved, l.length, fun x y hx hy lt => moving.moved_lt short hx hy lt,
        fun x hx => ?_, moving.readBack_eq short⟩
      rw [moving.number_moved short]
      exact Positions.Within.offset_le (fun _ _ found => moving.laid.le_length found) x

/-- A class whose parts are those of one that was read, and whose bodies are written as they stand:
it reads back, with the table of bootstrap methods that the writer left. -/
theorem rewritten_write {w : Written} (sane : c.Sane (keptLimits t) t)
    (known : bootstrapsOf c.attributes = .ok t) (run : write h c = .ok w)
    (unwidened : w.bodies.map (Option.map WrittenBody.code) = c.methods.map Method.code)
    (resolvable : ∀ m ∈ c.methods, ∀ code, m.code = some code → ∀ i ∈ code.insns, i.Resolvable)
    (counts : ∀ m ∈ c.methods, ∀ code, m.code = some code → code.Countable)
    (bodyLengths : ∀ b, some b ∈ w.bodies → b.bytes.length < 4294967296)
    (lengths : ∀ a ∈ withBootstraps w.tables.bootstraps c.attributes, a.Fits) :
    parse w.bytes = .ok (readBack h c w) ∧
      bootstrapsOf (readBack h c w).attributes = .ok w.tables.bootstraps ∧
        c.Rewritten (readBack h c w) := by
  have entry : ∀ m ∈ c.methods, EntrySane (keptLimits t) (c.bodyContext t m) := fun m hm =>
    entrySane sane.name (sane.methods.2 m hm).desc fun _ _ le short => Nat.lt_of_le_of_lt le short
  have bodies : List.Forall₂ (fun m s => BodyReady (keptLimits t) h c.name c.major m s ∧
      Method.Rewritten (50 ≤ c.major) m (readBackMethod h c.name c.major m s))
      c.methods w.bodies := by
    have both := List.Forall₂.mp (fun m s settles same => And.intro settles same)
      (settles_write run) (forall₂_of_map_eq unwidened)
    exact forall₂_imp_mem both fun m hm body hb h =>
      rewritten_method (sane.methods.2 m hm) (entry m hm) h.1 h.2 (resolvable m hm)
        (counts m hm) fun b same => bodyLengths b (same ▸ hb)
  obtain ⟨tables, grown, reads⟩ := reads_write (names_keptLimits t) (within_of_sane sane entry)
    sane.pool known sane.table run (bodies.imp fun m s h => h.1)
  have arity : ∀ e ∈ w.tables.bootstraps.toList, e.args.length < 65536 := fun e he =>
    (tables.bootstraps.arities e he).1
  have size := Nat.lt_succ_of_le tables.bootstraps.size_le
  have kept : w.tables.bootstraps.toList ≠ [] → t.toList ≠ [] := by
    intro filled
    obtain ⟨e, he⟩ := List.exists_mem_of_ne_nil _ filled
    exact (tables.bootstraps.arities e he).2
  have attributes := rewritten_withBootstraps known grown.bootstraps size arity kept
  have fits : Fits h c w := {
    members := ⟨sane.interfaces.1, sane.fields.1, sane.methods.1, fun f hf =>
      ⟨(sane.fields.2 f hf).attributeCount, (sane.fields.2 f hf).lengths⟩,
      bodies.imp fun m s h => h.1.1⟩
    attributeCount := attributes.length_eq ▸ sane.attributes.1
    lengths := lengths
    texts := tables.pool.texts
    arities := arity }
  exact ⟨reads fits, bootstrapsOf_withBootstraps known grown.bootstraps size arity, rfl, rfl, rfl,
    rfl, rfl, rfl, rfl, forall₂_zipWith (bodies.imp fun m s h => h.2), attributes, grown.pool⟩

theorem keptLimits_arity {attributes : List Attribute} (known : bootstrapsOf attributes = .ok t) :
    ∀ e ∈ t.toList, (keptLimits t).arity e.args.length := fun e he =>
  ⟨arity_of_bootstrapsOf known e he, List.ne_nil_of_mem he⟩

/-- A class that was read and is written without an edit reads back as itself, up to what the
stored form cannot keep apart. -/
theorem rewritten_parse_encode {bytes bytes' : Bytes} (parsed : parse bytes = .ok c)
    (written : encode h c = .ok bytes') (unwidened : Unwidened h c) (storable : Storable h c) :
    ∃ c', parse bytes' = .ok c' ∧ c.Rewritten c' := by
  obtain ⟨t, known, _, all⟩ := sane_parse parsed
  obtain ⟨w, run, rfl⟩ := write_of_encode written
  have sane := all (keptLimits t) (fun text ht => Nat.lt_succ_of_le (storable.texts text ht))
    (keptLimits_arity known)
  have entry : ∀ m ∈ c.methods, EntrySane (keptLimits t) (c.bodyContext t m) := fun m hm =>
    entrySane sane.name (sane.methods.2 m hm).desc fun _ _ le short => Nat.lt_of_le_of_lt le short
  obtain ⟨bodyLengths, tableLength⟩ := storable.lengths w run
  have read := rewritten_write sane known run (unwidened w run)
    (fun m hm code same => by
      obtain ⟨b, hb, rfl⟩ := (sane.methods.2 m hm).body (entry m hm) code same
      exact hb.resolvable storable.plain)
    storable.counts bodyLengths fun a ha => by
      rcases mem_withBootstraps ha with rfl | ha
      · exact tableLength
      · exact (sane.attributes.2 a ha).2
  exact ⟨_, read.1, read.2.2⟩

/-- A class of version 50 with one body, which has two stack map tables: the first names the second
instruction, and the second takes its place without a frame. -/
def twoTables : Bytes :=
  [0xCA, 0xFE, 0xBA, 0xBE, 0, 0, 0, 50, 0, 7,
    1, 0, 1, 65, 7, 0, 1, 1, 0, 1, 109, 1, 0, 3, 40, 41, 86, 1, 0, 4, 67, 111, 100, 101,
    1, 0, 13, 83, 116, 97, 99, 107, 77, 97, 112, 84, 97, 98, 108, 101,
    0, 33, 0, 2, 0, 0, 0, 0, 0, 0, 0, 1, 0, 9, 0, 3, 0, 4, 0, 1,
    0, 5, 0, 0, 0, 31, 0, 0, 0, 0, 0, 0, 0, 2, 0, 177, 0, 0, 0, 2,
    0, 6, 0, 0, 0, 3, 0, 1, 1, 0, 6, 0, 0, 0, 2, 0, 0, 0, 0]

theorem parse_twoTables : ∃ c w, parse twoTables = .ok c ∧ write Hierarchy.empty c = .ok w ∧
    Unwidened Hierarchy.empty c ∧ Storable Hierarchy.empty c := by
  have computed : (match parse twoTables with
      | .error _ => false
      | .ok c => match write Hierarchy.empty c with
        | .error _ => false
        | .ok w => w.bodies.map (Option.map WrittenBody.code) = c.methods.map Method.code ∧
            c.pool.toList = [none, some (.utf8 "A"), some (.type 1), some (.utf8 "m"),
              some (.utf8 "()V"), some (.utf8 "Code"), some (.utf8 "StackMapTable")] ∧
            c.methods.map (fun m => m.code.map (·.insns.length)) = [some 3] ∧
            c.methods.map (fun m => m.code.map (·.locals)) = [some []] ∧
            w.bodies.map (Option.map (·.bytes.length)) = [some 14] ∧
            w.tables.bootstraps.encode.length = 2 : Bool) = true := by
    decide +kernel
  split at computed
  · cases computed
  rename_i c parsed
  split at computed
  · cases computed
  rename_i w run
  obtain ⟨same, pool, insns, locals, bodies, table⟩ := of_decide_eq_true computed
  have only : ∀ w', write Hierarchy.empty c = .ok w' → w' = w := fun w' run' => by
    rw [run] at run'
    cases run'
    rfl
  refine ⟨c, w, parsed, run, fun w' run' => only w' run' ▸ same, ?_, ?_, ?_, fun w' run' => ?_⟩
  · intro text mem
    simp only [pool, List.mem_cons, Option.some.injEq, Constant.utf8.injEq, reduceCtorEq,
      List.not_mem_nil, or_false, false_or] at mem
    rcases mem with rfl | rfl | rfl | rfl | rfl <;> decide
  · intro m hm code hcode
    have short := List.mem_map_of_mem (f := fun m : Method => m.code.map (·.insns.length)) hm
    have none := List.mem_map_of_mem (f := fun m : Method => m.code.map (·.locals)) hm
    rw [insns, hcode, List.mem_singleton] at short
    rw [locals, hcode, List.mem_singleton] at none
    have few := List.countP_le_length (p := Insn.isLine) (l := code.insns)
    have length : code.insns.length = 3 := Option.some.inj short
    have empty : code.locals = [] := Option.some.inj none
    refine ⟨by omega, ?_, ?_⟩ <;> rw [empty] <;> decide
  · intro kind reference owner nameAndType mem
    simp [pool] at mem
  · rw [only w' run']
    refine ⟨fun b hb => ?_, by omega⟩
    have length := List.mem_map_of_mem (f := Option.map (·.bytes.length)) hb
    rw [bodies, List.mem_singleton] at length
    have length : b.bytes.length = 14 := Option.some.inj length
    omega

theorem rewritten_twoTables : ∃ c bytes, parse twoTables = .ok c ∧
    encode Hierarchy.empty c = .ok bytes ∧ ∃ c', parse bytes = .ok c' ∧ c.Rewritten c' := by
  obtain ⟨c, w, parsed, run, unwidened, storable⟩ := parse_twoTables
  have written : encode Hierarchy.empty c = .ok w.bytes := by
    rw [encode_eq, run]
    rfl
  exact ⟨c, w.bytes, parsed, written, rewritten_parse_encode parsed written unwidened storable⟩

/-- Labels that nothing names any more cannot be stored, so not every label of a body that was read
is there again. -/
theorem lost_label_twoTables : ∃ c bytes c', parse twoTables = .ok c ∧
    encode Hierarchy.empty c = .ok bytes ∧ Unwidened Hierarchy.empty c ∧
    Storable Hierarchy.empty c ∧ parse bytes = .ok c' ∧
    ¬ List.Forall₂ (fun m m' => Option.Rel (fun b b' => b.MovedTo
      { b.arranged (50 ≤ c.major) with insns := b.insns.map Insn.sortKeys } b') m.code m'.code)
      c.methods c'.methods := by
  obtain ⟨c, w, parsed, run, unwidened, storable⟩ := parse_twoTables
  have written : encode Hierarchy.empty c = .ok w.bytes := by
    rw [encode_eq, run]
    rfl
  have computed : (match parse twoTables with
      | .error _ => false
      | .ok c => match write Hierarchy.empty c with
        | .error _ => false
        | .ok w => match parse w.bytes with
          | .error _ => false
          | .ok c' => c.methods.map (fun m => m.code.map (·.insns.length)) = [some 3] ∧
              c'.methods.map (fun m => m.code.map (·.insns.length)) = [some 2] : Bool) = true := by
    decide +kernel
  rw [parsed] at computed
  dsimp only at computed
  rw [run] at computed
  dsimp only at computed
  split at computed
  · cases computed
  rename_i c' again
  obtain ⟨three, two⟩ := of_decide_eq_true computed
  obtain ⟨m, one, long⟩ := List.map_eq_singleton_iff.1 three
  obtain ⟨m', one', short⟩ := List.map_eq_singleton_iff.1 two
  refine ⟨c, w.bytes, c', parsed, written, unwidened, storable, again, fun same => ?_⟩
  rw [one, one'] at same
  obtain ⟨bodies, _⟩ := List.forall₂_cons.1 same
  cases hm : m.code with
  | none =>
    rw [hm] at long
    cases long
  | some b =>
    rw [hm] at long bodies
    cases hm' : m'.code with
    | none =>
      rw [hm'] at short
      cases short
    | some b' =>
      rw [hm'] at short bodies
      cases bodies with
      | some moved =>
        obtain ⟨move, length, _, _, rfl⟩ := moved
        have three : b.insns.length = 3 := Option.some.inj long
        have two : ((b.insns.map Insn.sortKeys).map (Insn.relabel move)).length = 2 :=
          Option.some.inj short
        rw [List.length_map, List.length_map] at two
        omega

end ClassFile

end ClassWeave
