import Mathlib.Data.List.Forall2
import Mathlib.Tactic.Common
import ClassWeave.Proofs.Body.Repeating
import ClassWeave.Proofs.Decoding.Classes
import ClassWeave.Proofs.Edited

/-!
# Raw attributes stay valid

A class that was read, edited and written is read again with its constants and bootstrap methods
under their old numbers, and with the raw attributes that refer to them byte for byte, whatever has
become of its bodies. The writer cuts counts to sixteen bits, so that has to cost nothing.
-/

set_option autoImplicit false

namespace ClassWeave

namespace ClassFile

def storedMethod (m : Method) (body : Option WrittenBody) : StoredMethod :=
  ⟨m.access, m.name, m.desc, methodAttributes m body⟩

def AttributesFit (attributes : List Attribute) : Prop :=
  attributes.length < 65536 ∧ ∀ a ∈ attributes, a.Fits

theorem grows_traceMethod (h : Hierarchy) (owner : String) (major : UInt16) (m : Method) :
    Grows Limits.none (traceMethod h owner major m) fun f r =>
      AttributesFit (methodAttributes m r.2) →
        ∀ o, ReadsAt o (readMethod f.pool) r.1 (storedMethod m r.2) := by
  refine .bind (Tables.grows_utf8 True.intro) fun i _ => ?_
  refine .bind (Tables.grows_utf8 True.intro) fun j _ => ?_
  refine .bind (extending_traceBody h owner major m) fun body _ => ?_
  refine .bind (grows_encodeAttributes fun _ _ => True.intro) fun attributes _ => ?_
  refine .pure fun f hattributes _ hj hi fits o => ?_
  obtain ⟨chunks, rfl, hattributes⟩ := hattributes
  simp only [List.append_assoc]
  refine .bind (.u16_toNat m.access.bits) (.bind (readsAt_readUtf8 hi.2) ?_)
  refine .bind (readsAt_readUtf8 hj.2) (.bind_last ?_ (.pure _))
  exact hattributes.readsAt fits.1 fits.2 _

structure MembersUncut (c : ClassFile) (bodies : List (Option WrittenBody)) : Prop where
  interfaces : c.interfaces.length < 65536
  fields : c.fields.length < 65536
  methods : c.methods.length < 65536
  fieldAttributes : ∀ f ∈ c.fields, AttributesFit f.attributes
  methodAttributes : List.Forall₂ (fun m body => AttributesFit (methodAttributes m body))
    c.methods bodies

def MembersStored (c : ClassFile) (f : Tables) (bodies : List (Option WrittenBody))
    (bytes : Bytes) : Prop :=
  ∃ names fields methods, bytes = names ++ (fields ++ methods) ∧
    (∀ o, ReadsAt o (Header.readNames f.pool) names (c.access, c.header)) ∧
    (∀ o, ReadsAt o (Reader.counted (readField f.pool)) fields c.fields) ∧
    ∀ o, ReadsAt o (Reader.counted (readMethod f.pool)) methods
      (List.zipWith storedMethod c.methods bodies)

theorem grows_traceMembers (h : Hierarchy) (c : ClassFile) :
    Grows Limits.none (traceMembers h c) fun f r => c.MembersUncut r.2 →
      c.MembersStored f r.2 r.1 := by
  refine .bind (Tables.grows_className True.intro) fun i _ => ?_
  refine .bind (grows_superIndex fun _ _ => True.intro) fun j _ => ?_
  refine .bind (.mapM fun name _ => Tables.grows_className True.intro) fun interfaces _ => ?_
  refine .bind (.mapM fun f _ => grows_encodeField ⟨True.intro, True.intro, fun _ _ => True.intro⟩)
    fun fields _ => ?_
  refine .bind (.mapM fun m _ => grows_traceMethod h c.name c.major m) fun methods _ => ?_
  refine .pure fun f hmethods hfields hinterfaces hj hi uncut => ?_
  have fieldsRead : List.Forall₂ (fun bs f' => ∀ o, ReadsAt o (readField f.pool) bs f') fields
      c.fields := by
    refine (forall₂_imp_mem hfields fun f' hf' bs _ read => ?_).flip
    exact read (uncut.fieldAttributes f' hf').1 (uncut.fieldAttributes f' hf').2
  have methodsRead : List.Forall₂ (fun bs s => ∀ o, ReadsAt o (readMethod f.pool) bs s)
      (methods.map Prod.fst) (List.zipWith storedMethod c.methods (methods.map Prod.snd)) := by
    have fits := List.forall₂_map_right_iff.1 uncut.methodAttributes
    have each := List.Forall₂.mp (fun m r read fits => read fits) hmethods fits
    rw [List.zipWith_map_right, List.zipWith_comm]
    exact List.forall₂_map_left_iff.2 (forall₂_zipWith each.flip)
  have methodCount : (List.zipWith storedMethod c.methods (methods.map Prod.snd)).length =
      c.methods.length := by
    rw [List.length_zipWith, List.length_map, hmethods.length_eq, Nat.min_self]
  refine ⟨_, _, _, ?_, readsAt_readNames hi.2 hj hinterfaces uncut.interfaces, fun o =>
    .counted fieldsRead uncut.fields, fun o =>
    .counted methodsRead (by rw [methodCount]; exact uncut.methods)⟩
  simp only [methodCount, List.append_assoc]

theorem parse_cases {minor major : UInt16} {p : Pool} {access : Access} {header : Header}
    {fields : List Field} {stored : List StoredMethod} {attributes : List Attribute}
    {openingBytes namesBytes fieldBytes methodBytes attributeBytes : Bytes}
    (opening : ReadsAt 0 Header.readOpening openingBytes (minor, major, p))
    (names : ∀ o, ReadsAt o (Header.readNames p) namesBytes (access, header))
    (readFields : ∀ o, ReadsAt o (Reader.counted (readField p)) fieldBytes fields)
    (readMethods : ∀ o, ReadsAt o (Reader.counted (readMethod p)) methodBytes stored)
    (readAttrs : ∀ o, ReadsAt o (readAttributes p) attributeBytes attributes) {c : ClassFile}
    (run : parse (openingBytes ++ (namesBytes ++ (fieldBytes ++ methodBytes) ++ attributeBytes)) =
      .ok c) :
    ∃ t methods, bootstrapsOf attributes = .ok t ∧
      List.Forall₂ (fun s m => decodeMethod p t header.name s = .ok m) stored methods ∧
      c = ⟨minor, major, p, access, header.name, header.superName, header.interfaces, fields,
        methods, attributes⟩ := by
  rw [List.append_assoc, List.append_assoc] at run
  obtain ⟨⟨c', behind⟩, reading, same⟩ := bind_ok_iff.1
    (show (read ⟨0, _⟩ >>= fun p => Except.ok p.1) = .ok c from run)
  cases same
  replace reading := (names _).after (opening.after reading)
  replace reading := (readMethods _).after ((readFields _).after reading)
  rw [← List.append_nil attributeBytes] at reading
  replace reading := (readAttrs _).after reading
  -- only the decoding is left
  refine Yields.bind (Q := fun c => ∃ t methods, bootstrapsOf attributes = .ok t ∧
    List.Forall₂ (fun s m => decodeMethod p t header.name s = .ok m) stored methods ∧
      c = ⟨minor, major, p, access, header.name, header.superName, header.interfaces, fields,
        methods, attributes⟩) (.trivial Reader.remaining) (fun left _ => ?_) _ _ _ reading
  refine .ite (fun _ => .bind .throw fun _ (h : False) => h.elim) fun _ => ?_
  refine .bind (.lift fun t h => h) fun t ht => .bind (.mapM_lift _ _) fun methods hm => ?_
  exact .pure ⟨t, methods, ht, hm, rfl⟩

/-- No count and no length is cut to its field where the class is written. -/
structure Uncut (c : ClassFile) (w : Written) : Prop where
  interfaces : c.interfaces.length < 65536
  fields : c.fields.length < 65536
  methods : c.methods.length < 65536
  bodies : ∀ m ∈ c.methods, m.code.isSome = true → m.attributes.length < 65535
  lengths : ∀ b, some b ∈ w.bodies → b.bytes.length < 4294967296
  attributes : (withBootstraps w.tables.bootstraps c.attributes).length < 65536
  arities : ∀ e ∈ w.tables.bootstraps.toList, e.args.length < 65536
  table : w.tables.bootstraps.encode.length < 4294967296
  texts : ∀ text, some (.utf8 text) ∈ w.tables.pool.toList →
    (ModifiedUtf8.encode text).length < 65536

instance (c : ClassFile) (w : Written) : Decidable (c.Uncut w) :=
  decidable_of_iff
    ((c.interfaces.length < 65536 ∧ c.fields.length < 65536 ∧ c.methods.length < 65536 ∧
      ∀ m ∈ c.methods, m.code.isSome = true → m.attributes.length < 65535) ∧
    (∀ o ∈ w.bodies, ∀ b ∈ o, b.bytes.length < 4294967296) ∧
    ((withBootstraps w.tables.bootstraps c.attributes).length < 65536 ∧
      (∀ e ∈ w.tables.bootstraps.toList, e.args.length < 65536) ∧
      w.tables.bootstraps.encode.length < 4294967296) ∧
    ∀ k ∈ w.tables.pool.toList, (match k with
      | some (.utf8 text) => decide ((ModifiedUtf8.encode text).length < 65536)
      | _ => true) = true)
    ⟨fun ⟨⟨interfaces, fields, methods, bodies⟩, lengths, ⟨attributes, arities, table⟩, texts⟩ =>
      ⟨interfaces, fields, methods, bodies, fun b mem => lengths _ mem b rfl, attributes, arities,
        table, fun text mem => of_decide_eq_true (texts _ mem)⟩,
    fun uncut => ⟨⟨uncut.interfaces, uncut.fields, uncut.methods, uncut.bodies⟩,
      fun o mem b here => uncut.lengths b (Option.mem_def.1 here ▸ mem),
      ⟨uncut.attributes, uncut.arities, uncut.table⟩, fun k mem => by
        split
        · exact decide_eq_true (uncut.texts _ mem)
        · rfl⟩⟩

/-- Everything that raw attributes refer to, and they themselves. Only the table of bootstrap
methods may have been added or lengthened. -/
structure Preserved (c c' : ClassFile) : Prop where
  minor : c'.minor = c.minor
  major : c'.major = c.major
  access : c'.access = c.access
  name : c'.name = c.name
  pool : c.pool.toList <+: c'.pool.toList
  bootstraps : ∃ t t', bootstrapsOf c.attributes = .ok t ∧ bootstrapsOf c'.attributes = .ok t' ∧
    t.toList <+: t'.toList ∧ c'.attributes = withBootstraps t' c.attributes
  attributes : c'.attributes.filter (·.name ≠ BootstrapTable.attributeName) =
    c.attributes.filter (·.name ≠ BootstrapTable.attributeName)
  fields : c.fields.map Field.raw <+: c'.fields.map Field.raw
  methods : c.methods.map Method.raw <+: c'.methods.map Method.raw

theorem filter_withBootstraps (t : BootstrapTable) (attributes : List Attribute) :
    (withBootstraps t attributes).filter (·.name ≠ BootstrapTable.attributeName) =
      attributes.filter (·.name ≠ BootstrapTable.attributeName) := by
  have replaced : ∀ as : List Attribute,
      (withBootstraps.replace t as).filter (·.name ≠ BootstrapTable.attributeName) =
        as.filter (·.name ≠ BootstrapTable.attributeName) := by
    intro as
    induction as with
    | nil => rfl
    | cons a as ih =>
      rw [withBootstraps.replace]
      split
      · rename_i named
        rw [beq_iff_eq] at named
        rw [List.filter_cons_of_neg (by simp [named]), List.filter_cons_of_neg (by simp [named])]
      · rw [List.filter_cons, List.filter_cons, ih]
  unfold withBootstraps
  split
  · rfl
  · exact replaced attributes

section Writing

variable {h : Hierarchy} {c c' : ClassFile} {w : Written} {t : BootstrapTable}

theorem plain_of_retains (sane : c.Sane Limits.none t) (retains : c.Retains c') {m : Method}
    (mem : m ∈ c'.methods) :
    AttributesFit m.attributes ∧ ∀ a ∈ m.attributes, a.name ≠ "Code" := by
  rcases retains.methods.mem_or_nil (List.mem_map_of_mem mem) with known | none
  · obtain ⟨m', mem', same⟩ := List.mem_map.1 known
    have same : m'.attributes = m.attributes := congrArg Prod.snd same
    have sane' := sane.methods.2 m' mem'
    rw [← same]
    exact ⟨⟨Nat.lt_of_le_of_lt (Nat.le_add_left ..) sane'.attributeCount,
      fun a ha => (sane'.attributes a ha).2⟩, sane'.names⟩
  · have none : m.attributes = [] := none
    rw [none]
    exact ⟨⟨Nat.zero_lt_succ 65535, List.forall_mem_nil _⟩, List.forall_mem_nil _⟩

theorem attributesFit_of_retains (sane : c.Sane Limits.none t) (retains : c.Retains c') {f : Field}
    (mem : f ∈ c'.fields) : AttributesFit f.attributes := by
  rcases retains.fields.mem_or_nil (List.mem_map_of_mem mem) with known | none
  · obtain ⟨f', mem', same⟩ := List.mem_map.1 known
    have same : f'.attributes = f.attributes := congrArg Prod.snd same
    have sane' := sane.fields.2 f' mem'
    exact same ▸ ⟨sane'.attributeCount, sane'.lengths⟩
  · have none : f.attributes = [] := none
    rw [none]
    exact ⟨Nat.zero_lt_succ 65535, List.forall_mem_nil _⟩

theorem membersUncut_of_retains (sane : c.Sane Limits.none t) (retains : c.Retains c')
    (settles : List.Forall₂ Settles c'.methods w.bodies) (uncut : c'.Uncut w) :
    c'.MembersUncut w.bodies := by
  refine ⟨uncut.interfaces, uncut.fields, uncut.methods,
    fun f mem => attributesFit_of_retains sane retains mem, ?_⟩
  refine forall₂_imp_mem settles fun m mem body mem' settled => ?_
  obtain ⟨⟨count, lengths⟩, _⟩ := plain_of_retains sane retains mem
  cases body with
  | none => exact ⟨count, lengths⟩
  | some b =>
    have room := uncut.bodies m mem settled.isSome_eq.symm
    refine ⟨Nat.succ_lt_succ room, fun a ha => ?_⟩
    rcases List.mem_cons.1 ha with rfl | ha
    · exact uncut.lengths b mem'
    · exact lengths a ha

theorem raw_of_decodeMethod {p : Pool} {owner : String} {m m' : Method}
    {body : Option WrittenBody} (names : ∀ a ∈ m.attributes, a.name ≠ "Code")
    (decoded : decodeMethod p t owner (storedMethod m body) = .ok m') : m'.raw = m.raw := by
  obtain ⟨code, rfl, _⟩ := decodeMethod_cases decoded
  have bodies : (body.toList.map WrittenBody.attribute).filter (·.name != "Code") = [] := by
    refine List.filter_eq_nil_iff.2 fun a ha => ?_
    obtain ⟨b, _, rfl⟩ := List.mem_map.1 ha
    exact fun other => absurd rfl (bne_iff_ne.1 other)
  have rest : m.attributes.filter (·.name != "Code") = m.attributes :=
    List.filter_eq_self.2 fun a ha => bne_iff_ne.2 (names a ha)
  rw [Method.raw, storedMethod, methodAttributes, List.filter_append, bodies, rest, List.nil_append,
    Method.raw]

theorem map_of_decoded {β : Type} {f : Method → β} {p : Pool} {owner : String}
    {methods methods' : List Method} {bodies : List (Option WrittenBody)}
    (length : methods.length = bodies.length)
    (each : ∀ m ∈ methods, ∀ body m', decodeMethod p t owner (storedMethod m body) = .ok m' →
      f m' = f m)
    (decoded : List.Forall₂ (fun s m => decodeMethod p t owner s = .ok m)
      (List.zipWith storedMethod methods bodies) methods') :
    methods'.map f = methods.map f := by
  induction methods generalizing bodies methods' with
  | nil =>
    cases decoded
    rfl
  | cons m methods ih =>
    obtain ⟨here, others⟩ := List.forall_mem_cons.1 each
    cases bodies with
    | nil => cases length
    | cons body bodies =>
      cases decoded with
      | cons first rest =>
        rw [List.map_cons, List.map_cons, here body _ first, ih (Nat.succ.inj length) others rest]

/-- A written class whose file is read again: its pool and its bootstrap methods have grown, and
its methods are what the stored ones decode to. -/
theorem decoded_write (pool : c.pool.WellFormed Limits.none)
    (known : bootstrapsOf c.attributes = .ok t) (run : write h c = .ok w)
    (members : c.MembersUncut w.bodies) (lengths : ∀ a ∈ c.attributes, a.Fits)
    (uncut : c.Uncut w) (reparsed : parse w.bytes = .ok c') :
    Tables.Extended ⟨c.pool, t⟩ w.tables ∧
      bootstrapsOf c'.attributes = .ok w.tables.bootstraps ∧ ∃ t' methods,
        List.Forall₂ (fun s m => decodeMethod w.tables.pool t' c.name s = .ok m)
          (List.zipWith storedMethod c.methods w.bodies) methods ∧ c' = { c with
          pool := w.tables.pool
          methods := methods
          attributes := withBootstraps w.tables.bootstraps c.attributes } := by
  obtain ⟨t', bytes, middle, rest, known', traced, attributes, whole⟩ := write_cases run
  rw [known] at known'
  cases known'
  have table : t.WellFormed Limits.none := wellFormed_bootstrapsOf known fun _ _ => True.intro
  obtain ⟨hmiddle, first, read⟩ := grows_traceMembers h c ⟨c.pool, t⟩ _ middle ⟨pool, table⟩ traced
  obtain ⟨hlast, second, readAttributes⟩ :=
    readsAt_classAttributes (fun _ _ => True.intro) hmiddle attributes
  have grown : Tables.Extended ⟨c.pool, t⟩ w.tables := Growing.trans _ _ _ first second
  obtain ⟨namesBytes, fieldBytes, methodBytes, rfl, readNames, readFields, readMethods⟩ :=
    read _ rfl w.tables second members
  have fits : ∀ a ∈ withBootstraps w.tables.bootstraps c.attributes, a.Fits := by
    intro a ha
    rcases mem_withBootstraps ha with rfl | ha
    · exact uncut.table
    · exact lengths a ha
  rw [whole] at reparsed
  obtain ⟨t', methods, found, decoded, same⟩ := parse_cases
    (readsAt_readOpening hlast.pool uncut.texts c.minor c.major) readNames readFields readMethods
    (readAttributes uncut.attributes fits) reparsed
  have table := bootstrapsOf_withBootstraps known grown.bootstraps
    (Nat.lt_succ_of_le hlast.bootstraps.size_le) uncut.arities
  exact ⟨grown, same ▸ table, t', methods, decoded, same⟩

theorem reparse_write (pool : c.pool.WellFormed Limits.none)
    (known : bootstrapsOf c.attributes = .ok t) (run : write h c = .ok w)
    (members : c.MembersUncut w.bodies)
    (names : ∀ m ∈ c.methods, ∀ a ∈ m.attributes, a.name ≠ "Code")
    (lengths : ∀ a ∈ c.attributes, a.Fits) (uncut : c.Uncut w)
    (reparsed : parse w.bytes = .ok c') :
    Tables.Extended ⟨c.pool, t⟩ w.tables ∧
      bootstrapsOf c'.attributes = .ok w.tables.bootstraps ∧ ∃ methods,
        methods.map Method.raw = c.methods.map Method.raw ∧ c' = { c with
          pool := w.tables.pool
          methods := methods
          attributes := withBootstraps w.tables.bootstraps c.attributes } := by
  obtain ⟨grown, table, t', methods, decoded, same⟩ :=
    decoded_write pool known run members lengths uncut reparsed
  refine ⟨grown, table, methods, ?_, same⟩
  exact map_of_decoded members.methodAttributes.length_eq
    (fun m mem _ _ => raw_of_decodeMethod (names m mem)) decoded

end Writing

/-- Whatever edits a class that was read goes through, it is written and read again with all that
its raw attributes refer to, and with the raw attributes, when no count is cut. -/
theorem preserved_edited {h : Hierarchy} {bytes bytes' : Bytes} {c c' c'' : ClassFile}
    (parsed : parse bytes = .ok c) (edited : Edited c c') (written : encode h c' = .ok bytes')
    (uncut : ∀ w, write h c' = .ok w → c'.Uncut w) (reparsed : parse bytes' = .ok c'') :
    c.Preserved c'' := by
  obtain ⟨t, known, pool, limited⟩ := sane_parse parsed
  have sane := limited Limits.none (fun _ _ => True.intro) fun _ _ => True.intro
  have retains := edited.retains
  obtain ⟨w, run, rfl⟩ := write_of_encode written
  have members := membersUncut_of_retains sane retains (settles_write run) (uncut w run)
  have names := fun m mem => (plain_of_retains (m := m) sane retains mem).2
  have lengths : ∀ a ∈ c'.attributes, a.Fits := by
    rw [retains.attributes]
    exact fun a ha => (sane.attributes.2 a ha).2
  obtain ⟨grown, found, methods, raws, rfl⟩ := reparse_write (retains.pool ▸ pool)
    (retains.attributes ▸ known) run members names lengths (uncut w run) reparsed
  constructor
  case minor => exact retains.minor
  case major => exact retains.major
  case access => exact retains.access
  case name => exact retains.name
  case pool =>
    have pool : c'.pool.Grown w.tables.pool := grown.pool
    rwa [retains.pool] at pool
  case bootstraps =>
    refine ⟨t, w.tables.bootstraps, known, found, grown.bootstraps, ?_⟩
    show withBootstraps w.tables.bootstraps c'.attributes = _
    rw [retains.attributes]
  case attributes =>
    show (withBootstraps w.tables.bootstraps c'.attributes).filter _ = _
    rw [filter_withBootstraps, retains.attributes]
  case fields => exact retains.fields.isPrefix
  case methods =>
    show _ <+: methods.map Method.raw
    rw [raws]
    exact retains.methods.isPrefix

/-- An abstract class with an abstract method, each with an attribute that refers to the pool. -/
def notedClass : Bytes :=
  [0xCA, 0xFE, 0xBA, 0xBE, 0, 0, 0, 50, 0, 6,
    1, 0, 1, 65, 7, 0, 1, 1, 0, 1, 109, 1, 0, 3, 40, 41, 86, 1, 0, 4, 78, 111, 116, 101,
    4, 33, 0, 2, 0, 0, 0, 0, 0, 0, 0, 1, 4, 1, 0, 3, 0, 4, 0, 1, 0, 5, 0, 0, 0, 2, 0, 3,
    0, 1, 0, 5, 0, 0, 0, 2, 0, 4]

def notedField : Editing Bool := Edit.apply ⟨Batch.empty, Hierarchy.empty⟩ (.addField ⟨2⟩ "x" "I")

def notedBody : Editing Bool := Edit.apply ⟨Batch.empty, Hierarchy.empty⟩
  (.replaceMethod "m" "()V" ⟨"B", "m", "()V"⟩ Opcode.invokestatic)

theorem uncut_notedClass : ∃ c c' w c'', parse notedClass = .ok c ∧ Edited c c' ∧
    write Hierarchy.empty c' = .ok w ∧ c'.Uncut w ∧ parse w.bytes = .ok c'' ∧
    c''.fields.map Field.name = ["x"] ∧
    c''.methods.map (fun m => (m.code.isSome, m.attributes)) = [(true, [⟨"Note", [0, 3]⟩])] ∧
    c''.attributes = [⟨"Note", [0, 4]⟩] := by
  have computed : ((parse notedClass).toOption.any fun c =>
      (notedField.run c).1.toOption.any fun _ =>
      (notedBody.run (notedField.run c).2).1.toOption.any fun _ =>
        let c' := (notedBody.run (notedField.run c).2).2
        (write Hierarchy.empty c').toOption.any fun w => (parse w.bytes).toOption.any fun c'' =>
          c'.Uncut w ∧ c''.fields.map Field.name = ["x"] ∧
          c''.methods.map (fun m => (m.code.isSome, m.attributes)) =
            [(true, [⟨"Note", [0, 3]⟩])] ∧
          c''.attributes = [⟨"Note", [0, 4]⟩]) = true := by
    decide +kernel
  obtain ⟨c, parsed, computed⟩ := exists_ok_of_any computed
  obtain ⟨_, first, computed⟩ := exists_ok_of_any computed
  obtain ⟨_, second, computed⟩ := exists_ok_of_any computed
  obtain ⟨w, run, computed⟩ := exists_ok_of_any computed
  obtain ⟨c'', reparsed, computed⟩ := exists_ok_of_any computed
  obtain ⟨uncut, shown⟩ := of_decide_eq_true computed
  have edited : Edited c (notedBody.run (notedField.run c).2).2 :=
    .step (.step .start (Prod.ext first rfl)) (Prod.ext second rfl)
  exact ⟨c, _, w, c'', parsed, edited, run, uncut, reparsed, shown⟩

theorem preserved_notedClass : ∃ c c' bytes c'', parse notedClass = .ok c ∧ Edited c c' ∧
    encode Hierarchy.empty c' = .ok bytes ∧ parse bytes = .ok c'' ∧ c.Preserved c'' ∧
    c''.fields.map Field.name = ["x"] ∧
    c''.methods.map (fun m => (m.code.isSome, m.attributes)) = [(true, [⟨"Note", [0, 3]⟩])] ∧
    c''.attributes = [⟨"Note", [0, 4]⟩] := by
  obtain ⟨c, c', w, c'', parsed, edited, run, uncut, reparsed, shown⟩ := uncut_notedClass
  have written : encode Hierarchy.empty c' = .ok w.bytes := by
    rw [encode_eq, run]
    rfl
  refine ⟨c, c', w.bytes, c'', parsed, edited, written, reparsed, ?_, shown⟩
  refine preserved_edited parsed edited written (fun w' run' => ?_) reparsed
  rw [run] at run'
  cases run'
  exact uncut

end ClassFile

end ClassWeave
