import Mathlib.Data.List.Forall2
import Mathlib.Tactic.Common
import ClassWeave.Proofs.Members

/-!
# Classes read back

What is written of a class reads back as the class with its settled bodies, its grown pool and its
grown table of bootstrap methods, provided that every count and length fits the field it is stored
in.
-/

set_option autoImplicit false

namespace ClassWeave

structure ClassFile.Within (limits : Limits) (c : ClassFile) : Prop where
  name : limits.text c.name
  superName : ∀ name, c.superName = some name → limits.text name
  interfaces : ∀ name ∈ c.interfaces, limits.text name
  fields : ∀ f ∈ c.fields, f.Within limits
  methods : ∀ m ∈ c.methods, m.Within limits
  attributes : ∀ a ∈ c.attributes, limits.text a.name

namespace ClassFile

def header (c : ClassFile) : Header := ⟨c.name, c.superName, c.interfaces, c.isInterface⟩

section

variable (h : Hierarchy) (c : ClassFile)

def superIndex : Tables.Growth UInt16 :=
  match c.superName with
  | some name => Tables.className name
  | none => pure 0

def traceMembers : Tables.Growth (Bytes × List (Option WrittenBody)) := do
  let name ← Tables.className c.name
  let superName ← superIndex c
  let interfaces ← c.interfaces.mapM Tables.className
  let fields ← c.fields.mapM encodeField
  let methods ← c.methods.mapM (traceMethod h c.name c.major)
  return (Bytes.be 2 c.access.bits.toNat ++ Bytes.be 2 name.toNat ++ Bytes.be 2 superName.toNat ++
    Bytes.be 2 c.interfaces.length ++ interfaces.flatMap (fun i => Bytes.be 2 i.toNat) ++
    Bytes.be 2 c.fields.length ++ fields.flatten ++
    Bytes.be 2 c.methods.length ++ (methods.map Prod.fst).flatten, methods.map Prod.snd)

/-- A written class, with the settled bodies and the tables at the end. -/
structure Written where
  bytes : Bytes
  bodies : List (Option WrittenBody)
  tables : Tables

/-- Writes a class and keeps what the writer knows in the end. -/
def write : Except WriteError Written := do
  let bootstraps ← orMalformed (bootstrapsOf c.attributes)
  let (members, tables) := (traceMembers h c).run ⟨c.pool, bootstraps⟩
  let (members, bodies) ← members
  let (attributes, last) :=
    (encodeAttributes (withBootstraps tables.bootstraps c.attributes)).run tables
  let attributes ← attributes
  return ⟨Bytes.be 4 Header.magic.toNat ++ Bytes.be 2 c.minor.toNat ++ Bytes.be 2 c.major.toNat ++
    last.pool.encode ++ (members ++ attributes), bodies, last⟩

theorem bind_run {σ α β : Type} (m : GrowthOf σ α) (k : α → GrowthOf σ β) (s : σ) :
    (m >>= k) s = match m s with
      | (.ok a, t) => k a t
      | (.error e, t) => (.error e, t) := by
  change ExceptT.bindCont k (m s).1 (m s).2 = _
  rcases m s with ⟨e | a, t⟩
  · rfl
  · rfl

theorem mapM_fst {σ α β γ : Type} (f : α → GrowthOf σ (β × γ)) (as : List α) :
    (as.mapM fun a => Prod.fst <$> f a) = List.map Prod.fst <$> as.mapM f := by
  induction as with
  | nil => simp
  | cons a as ih => simp [ih]

theorem encodeBody_eq :
    encodeBody h c = do
      let members ← traceMembers h c
      let tables ← get
      let attributes ← encodeAttributes (withBootstraps tables.bootstraps c.attributes)
      return members.1 ++ attributes := by
  have methods : c.methods.mapM (encodeMethod h c.name c.major) =
      List.map Prod.fst <$> c.methods.mapM (traceMethod h c.name c.major) := by
    rw [← mapM_fst]
    congr 1
    funext m
    exact encodeMethod_eq h c.name c.major m
  unfold encodeBody traceMembers superIndex
  rw [methods]
  cases c.superName with
  | none => simp [-bind_pure_comp, map_eq_pure_bind]
  | some name => simp [-bind_pure_comp, map_eq_pure_bind]

theorem run_encodeBody (s : Tables) :
    (encodeBody h c).run s = match (traceMembers h c).run s with
      | (.error e, t) => (.error e, t)
      | (.ok members, t) =>
        match (encodeAttributes (withBootstraps t.bootstraps c.attributes)).run t with
        | (.error e, t) => (.error e, t)
        | (.ok attributes, t) => (.ok (members.1 ++ attributes), t) := by
  rw [encodeBody_eq]
  refine (bind_run _ _ s).trans ?_
  unfold ExceptT.run
  rcases traceMembers h c s with ⟨e | r, t⟩
  · rfl
  · refine (bind_run (encodeAttributes (withBootstraps t.bootstraps c.attributes)) _ t).trans ?_
    dsimp only
    rcases encodeAttributes (withBootstraps t.bootstraps c.attributes) t with ⟨e | r', last⟩
    · rfl
    · rfl

theorem encode_eq : encode h c = Written.bytes <$> write h c := by
  unfold encode write
  cases bootstrapsOf c.attributes with
  | error e => rfl
  | ok t =>
    have ok_bind : ∀ {β : Type} (k : BootstrapTable → Except WriteError β),
        (orMalformed (.ok t) >>= k) = k t := fun _ => rfl
    rw [ok_bind, ok_bind, run_encodeBody]
    rcases (traceMembers h c).run ⟨c.pool, t⟩ with ⟨e | r, tables⟩
    · rfl
    · dsimp only
      rcases (encodeAttributes (withBootstraps tables.bootstraps c.attributes)).run tables
        with ⟨e | r', last⟩
      · rfl
      · rfl

variable {h c} in
theorem write_of_encode {bytes : Bytes} (written : encode h c = .ok bytes) :
    ∃ w, write h c = .ok w ∧ w.bytes = bytes := by
  rw [encode_eq] at written
  cases run : write h c with
  | error e =>
    rw [run] at written
    cases written
  | ok w =>
    rw [run] at written
    cases written
    exact ⟨w, rfl, rfl⟩

def readBackMethods (bodies : List (Option WrittenBody)) : List Method :=
  List.zipWith (readBackMethod h c.name c.major) c.methods bodies

structure MembersFit (bodies : List (Option WrittenBody)) : Prop where
  interfaceCount : c.interfaces.length < 65536
  fieldCount : c.fields.length < 65536
  methodCount : c.methods.length < 65536
  fieldAttributes : ∀ f ∈ c.fields, f.attributes.length < 65536 ∧ ∀ a ∈ f.attributes, a.Fits
  methods : List.Forall₂ (MethodFits h c.name c.major) c.methods bodies

def MembersRead (f : Tables) (bodies : List (Option WrittenBody)) (bytes : Bytes) : Prop :=
  ∃ names fields methods, bytes = names ++ (fields ++ methods) ∧
    (∀ o, ReadsAt o (Header.readNames f.pool) names (c.access, c.header)) ∧
    (∀ o, ReadsAt o (Reader.counted (readField f.pool)) fields c.fields) ∧
    ∃ stored, (∀ o, ReadsAt o (Reader.counted (readMethod f.pool)) methods stored) ∧
      stored.mapM (decodeMethod f.pool f.bootstraps c.name) = .ok (c.readBackMethods h bodies)

end

variable {limits : Limits} {h : Hierarchy} {c : ClassFile}

theorem readsAt_readNames {p : Pool} {i j : UInt16} (hi : p.className i = .ok c.name)
    (hj : c.superName = none ∧ j = 0 ∨
      ∃ name, c.superName = some name ∧ j ≠ 0 ∧ p.className j = .ok name)
    {interfaces : List UInt16}
    (hinterfaces : List.Forall₂ (fun name i => i ≠ 0 ∧ p.className i = .ok name) c.interfaces
      interfaces) (count : c.interfaces.length < 65536) (o : Nat) :
    ReadsAt o (Header.readNames p)
      (Bytes.be 2 c.access.bits.toNat ++ (Bytes.be 2 i.toNat ++ (Bytes.be 2 j.toNat ++
        (Bytes.be 2 c.interfaces.length ++ interfaces.flatMap fun i => Bytes.be 2 i.toNat))))
      (c.access, c.header) := by
  have each : ∀ {i : UInt16} {name : String} {o : Nat}, p.className i = .ok name →
      ReadsAt o (Header.readClassName p) (Bytes.be 2 i.toNat) name := fun found =>
    .bind_last (.u16_toNat _) (.lift found)
  have list : ∀ o, ReadsAt o (Reader.counted (Header.readClassName p))
      (Bytes.be 2 c.interfaces.length ++ interfaces.flatMap fun i => Bytes.be 2 i.toNat)
      c.interfaces := by
    intro o
    rw [List.flatMap_def]
    refine .counted ?_ count
    exact List.forall₂_map_left_iff.2 (hinterfaces.flip.imp fun i name found o => each found.2)
  refine .bind (.u16_toNat c.access.bits) (.bind (each hi) (.bind (.u16_toNat j) ?_))
  rcases hj with ⟨root, rfl⟩ | ⟨name, named, ne, found⟩
  · rw [if_pos rfl]
    refine .bind_nil (.pure none) (.bind_last (list _) ?_)
    rw [header, root]
    exact .pure _
  · rw [if_neg ne]
    refine .bind_nil (.map some (.lift found)) (.bind_last (list _) ?_)
    rw [header, named]
    exact .pure _

theorem mapM_decodeMethod {f : Tables} {owner : String} {major : UInt16} {methods : List Method}
    {written : List (Bytes × Option WrittenBody)}
    (read : List.Forall₂ (fun m r => MethodRead h owner major f m r.2 r.1) methods written) :
    ∃ stored : List StoredMethod,
      List.Forall₂ (fun bs m => ∀ o, ReadsAt o (readMethod f.pool) bs m) (written.map Prod.fst)
        stored ∧
      stored.mapM (decodeMethod f.pool f.bootstraps owner) =
        .ok (List.zipWith (readBackMethod h owner major) methods (written.map Prod.snd)) := by
  induction read with
  | nil => exact ⟨[], .nil, rfl⟩
  | cons first _ ih =>
    obtain ⟨m, read, decoded⟩ := first
    obtain ⟨stored, reads, rest⟩ := ih
    refine ⟨m :: stored, .cons read reads, ?_⟩
    exact mapM_ok_iff.2 (.cons decoded (mapM_ok_iff.1 rest))

theorem grows_superIndex (within : ∀ name, c.superName = some name → limits.text name) :
    Grows limits (superIndex c) fun f j => c.superName = none ∧ j = 0 ∨
      ∃ name, c.superName = some name ∧ j ≠ 0 ∧ f.pool.className j = .ok name := by
  unfold superIndex
  cases hc : c.superName with
  | none => exact .pure fun _ => .inl ⟨rfl, rfl⟩
  | some name =>
    exact .mono (Tables.grows_className (within name hc)) fun f j hj => .inr ⟨name, rfl, hj⟩

theorem growsWhen_traceMembers (names : limits.Names) (within : c.Within limits) :
    GrowsWhen limits (traceMembers h c)
      (fun r => List.Forall₂ (BodyReady limits h c.name c.major) c.methods r.2)
      fun f r => c.MembersFit h r.2 → c.MembersRead h f r.2 r.1 := by
  refine .bind_grows (Tables.grows_className within.name) fun i _ => ?_
  refine .bind_grows (grows_superIndex within.superName) fun j _ => ?_
  refine .bind_grows (.mapM fun name hn => Tables.grows_className (within.interfaces name hn))
    fun interfaces _ => ?_
  refine .bind_grows (.mapM fun f hf => grows_encodeField (within.fields f hf)) fun fields _ => ?_
  refine .bind (.mapM fun m hm => growsWhen_traceMethod names (within.methods m hm))
    (fun ms => .pure fun ready => List.forall₂_map_right_iff.1 ready) fun methods _ _ => ?_
  refine Grows.when (.pure fun f methodsRead hfields hinterfaces hj hi fits => ?_)
  have fieldsRead : List.Forall₂ (fun bs f' => ∀ o, ReadsAt o (readField f.pool) bs f') fields
      c.fields := by
    refine (forall₂_imp_mem hfields fun f' hf' bs _ read => ?_).flip
    obtain ⟨count, lengths⟩ := fits.fieldAttributes f' hf'
    exact read count lengths
  obtain ⟨stored, reads, decoded⟩ := mapM_decodeMethod methodsRead
  have methodCount : c.methods.length = stored.length := by
    rw [methodsRead.length_eq, ← reads.length_eq, List.length_map]
  refine ⟨_, _, _, ?_, readsAt_readNames hi.2 hj hinterfaces fits.interfaceCount, fun o =>
    .counted fieldsRead fits.fieldCount, stored, fun o =>
    .counted reads (by rw [← methodCount]; exact fits.methodCount), decoded⟩
  simp only [← methodCount, List.append_assoc]

theorem answers_traceMembers :
    Answers (traceMembers h c) fun r => List.Forall₂ Settles c.methods r.2 := by
  refine .bind .trivial fun _ _ => .bind .trivial fun _ _ => .bind .trivial fun _ _ => ?_
  refine .bind .trivial fun _ _ => .bind (.mapM fun m _ => answers_traceMethod m)
    fun ms settles => ?_
  exact .pure (List.forall₂_map_right_iff.2 settles)

/-- A class that is written is written in two steps: its members, and then the attributes with the
bootstrap methods that the members have left. -/
theorem write_cases {w : Written} (run : write h c = .ok w) :
    ∃ t members middle attributes, bootstrapsOf c.attributes = .ok t ∧
      traceMembers h c ⟨c.pool, t⟩ = (.ok (members, w.bodies), middle) ∧
      encodeAttributes (withBootstraps middle.bootstraps c.attributes) middle =
        (.ok attributes, w.tables) ∧
      w.bytes = Bytes.be 4 Header.magic.toNat ++ Bytes.be 2 c.minor.toNat ++
        Bytes.be 2 c.major.toNat ++ w.tables.pool.encode ++ (members ++ attributes) := by
  unfold write at run
  cases known : bootstrapsOf c.attributes with
  | error e =>
    rw [known] at run
    cases run
  | ok t =>
    rw [known] at run
    have ok_bind : ∀ {β : Type} (k : BootstrapTable → Except WriteError β),
        (orMalformed (.ok t) >>= k) = k t := fun _ => rfl
    rw [ok_bind] at run
    rcases members : (traceMembers h c).run ⟨c.pool, t⟩ with ⟨e | ⟨bytes, bodies⟩, middle⟩
    · rw [members] at run
      cases run
    rw [members] at run
    rcases attributes : (encodeAttributes (withBootstraps middle.bootstraps c.attributes)).run
      middle with ⟨e | rest, last⟩
    · dsimp only at run
      rw [attributes] at run
      cases run
    · dsimp only at run
      rw [attributes] at run
      cases run
      exact ⟨t, bytes, middle, rest, rfl, members, attributes, rfl⟩

theorem write_of_parts {t : BootstrapTable} {members attributes : Bytes}
    {bodies : List (Option WrittenBody)} {middle last : Tables}
    (known : bootstrapsOf c.attributes = .ok t)
    (traced : traceMembers h c ⟨c.pool, t⟩ = (.ok (members, bodies), middle))
    (stored : encodeAttributes (withBootstraps middle.bootstraps c.attributes) middle =
      (.ok attributes, last)) :
    write h c = .ok ⟨Bytes.be 4 Header.magic.toNat ++ Bytes.be 2 c.minor.toNat ++
      Bytes.be 2 c.major.toNat ++ last.pool.encode ++ (members ++ attributes), bodies, last⟩ := by
  have ok_bind : ∀ {β : Type} (k : BootstrapTable → Except WriteError β),
      (orMalformed (.ok t) >>= k) = k t := fun _ => rfl
  unfold write
  rw [known, ok_bind]
  unfold ExceptT.run
  rw [traced]
  dsimp only
  rw [stored]
  rfl

theorem settles_write {w : Written} (run : write h c = .ok w) :
    List.Forall₂ Settles c.methods w.bodies := by
  obtain ⟨t, members, middle, _, _, traced, _⟩ := write_cases run
  exact answers_traceMembers _ _ _ traced

theorem withBootstraps_replace (t : BootstrapTable) (attributes : List Attribute) :
    attribute? (withBootstraps.replace t attributes) BootstrapTable.attributeName =
      some ⟨BootstrapTable.attributeName, t.encode⟩ := by
  induction attributes with
  | nil => rfl
  | cons a attributes ih =>
    rw [withBootstraps.replace]
    split
    · rename_i same
      rw [attribute?, List.find?_cons_of_pos (by exact same), beq_iff_eq.1 same]
    · rename_i other
      rw [attribute?, List.find?_cons_of_neg (by exact other)]
      exact ih

theorem mem_withBootstraps {t : BootstrapTable} {attributes : List Attribute} {a : Attribute}
    (ha : a ∈ withBootstraps t attributes) :
    a = ⟨BootstrapTable.attributeName, t.encode⟩ ∨ a ∈ attributes := by
  have replaced : ∀ as, a ∈ withBootstraps.replace t as →
      a = ⟨BootstrapTable.attributeName, t.encode⟩ ∨ a ∈ as := by
    intro as
    induction as with
    | nil =>
      intro h
      exact .inl (List.mem_singleton.1 h)
    | cons b as ih =>
      intro h
      rw [withBootstraps.replace] at h
      split at h
      · rename_i same
        rcases List.mem_cons.1 h with rfl | h
        · rw [beq_iff_eq.1 same]
          exact .inl rfl
        · exact .inr (List.mem_cons_of_mem _ h)
      · rcases List.mem_cons.1 h with rfl | h
        · exact .inr (List.mem_cons_self ..)
        · exact (ih h).imp_right (List.mem_cons_of_mem _)
  unfold withBootstraps at ha
  split at ha
  · exact .inr ha
  · exact replaced attributes ha

theorem bootstrapsOf_withBootstraps {t last : BootstrapTable} {attributes : List Attribute}
    (known : bootstrapsOf attributes = .ok t) (grown : t.Grown last)
    (size : last.toList.length < 65536) (arity : ∀ e ∈ last.toList, e.args.length < 65536) :
    bootstrapsOf (withBootstraps last attributes) = .ok last := by
  unfold withBootstraps
  split
  · rename_i none
    rw [Indexed.size_eq, List.length_eq_zero_iff] at none
    have same : t = last := by
      apply Indexed.ext_toList
      rw [none]
      exact List.prefix_nil.1 (none ▸ grown)
    rw [known, same]
  · unfold bootstrapsOf
    rw [withBootstraps_replace]
    exact BootstrapTable.parse_encode size arity

/-- Counts and lengths fit their fields: those of the class, of its bodies as they are written, and
of the tables at the end. -/
structure Fits (h : Hierarchy) (c : ClassFile) (w : Written) : Prop where
  members : c.MembersFit h w.bodies
  attributeCount : (withBootstraps w.tables.bootstraps c.attributes).length < 65536
  lengths : ∀ a ∈ withBootstraps w.tables.bootstraps c.attributes, a.Fits
  texts : ∀ text, some (.utf8 text) ∈ w.tables.pool.toList →
    (ModifiedUtf8.encode text).length < 65536
  arities : ∀ e ∈ w.tables.bootstraps.toList, e.args.length < 65536

def readBack (h : Hierarchy) (c : ClassFile) (w : Written) : ClassFile :=
  { c with
    pool := w.tables.pool
    methods := c.readBackMethods h w.bodies
    attributes := withBootstraps w.tables.bootstraps c.attributes }

theorem readsAt_readOpening {limits : Limits} {p : Pool} (hp : p.WellFormed limits)
    (texts : ∀ text, some (.utf8 text) ∈ p.toList → (ModifiedUtf8.encode text).length < 65536)
    (minor major : UInt16) :
    ReadsAt 0 Header.readOpening (Bytes.be 4 Header.magic.toNat ++ Bytes.be 2 minor.toNat ++
      Bytes.be 2 major.toNat ++ p.encode) (minor, major, p) := by
  have short : ∀ c, some c ∈ p.toList → c.Short := by
    intro c hc
    cases c with
    | utf8 text => exact texts text hc
    | _ => exact True.intro
  simp only [List.append_assoc]
  refine .bind (.u32_toNat Header.magic) ?_
  rw [if_neg (fun h => h rfl)]
  refine .bind (.u16_toNat minor) (.bind (.u16_toNat major) (.bind_last ?_ (.pure _)))
  exact Pool.readsAt_read hp short

theorem parse_parts {minor major : UInt16} {p : Pool} {access : Access} {header : Header}
    {fields : List Field} {stored : List StoredMethod} {methods : List Method}
    {attributes : List Attribute} {t : BootstrapTable}
    {openingBytes namesBytes fieldBytes methodBytes attributeBytes : Bytes}
    (opening : ReadsAt 0 Header.readOpening openingBytes (minor, major, p))
    (names : ∀ o, ReadsAt o (Header.readNames p) namesBytes (access, header))
    (readFields : ∀ o, ReadsAt o (Reader.counted (readField p)) fieldBytes fields)
    (readMethods : ∀ o, ReadsAt o (Reader.counted (readMethod p)) methodBytes stored)
    (readAttrs : ∀ o, ReadsAt o (readAttributes p) attributeBytes attributes)
    (found : bootstrapsOf attributes = .ok t)
    (decoded : stored.mapM (decodeMethod p t header.name) = .ok methods) :
    parse (openingBytes ++ ((namesBytes ++ (fieldBytes ++ methodBytes)) ++ attributeBytes)) =
      .ok ⟨minor, major, p, access, header.name, header.superName, header.interfaces, fields,
        methods, attributes⟩ := by
  apply ReadsAll.runOn
  refine ReadsAll.bind opening ?_
  rw [List.append_assoc, List.append_assoc]
  refine ReadsAll.bind (names _) (ReadsAll.bind (readFields _) (ReadsAll.bind (readMethods _) ?_))
  rw [← List.append_nil attributeBytes]
  refine ReadsAll.bind (readAttrs _) (.bind_remaining ?_)
  rw [if_neg (fun h => h rfl)]
  exact ReadsAt.all (.bind_nil (.lift found) (.bind_nil (.mapM_lift decoded) (.pure _)))

theorem readsAt_classAttributes {middle last : Tables} {attributes : List Attribute} {bytes : Bytes}
    (texts : ∀ a ∈ withBootstraps middle.bootstraps attributes, limits.text a.name)
    (hmiddle : Tables.WellFormed limits middle)
    (run : encodeAttributes (withBootstraps middle.bootstraps attributes) middle =
      (.ok bytes, last)) :
    Tables.WellFormed limits last ∧ Tables.Extended middle last ∧
      ((withBootstraps last.bootstraps attributes).length < 65536 →
        (∀ a ∈ withBootstraps last.bootstraps attributes, a.Fits) →
        ∀ o, ReadsAt o (readAttributes last.pool) bytes
          (withBootstraps last.bootstraps attributes)) := by
  obtain ⟨hlast, grown, stored⟩ := grows_encodeAttributes texts middle _ _ hmiddle run
  have kept : last.bootstraps = middle.bootstraps := bootstraps_encodeAttributes run
  obtain ⟨chunks, rfl, read⟩ := stored bytes rfl last (Growing.refl last)
  rw [kept]
  exact ⟨hlast, grown, read.readsAt⟩

theorem reads_write {w : Written} (names : limits.Names) (within : c.Within limits)
    (pool : c.pool.WellFormed limits) {t : BootstrapTable}
    (known : bootstrapsOf c.attributes = .ok t) (table : t.WellFormed limits)
    (run : write h c = .ok w)
    (ready : List.Forall₂ (BodyReady limits h c.name c.major) c.methods w.bodies) :
    Tables.WellFormed limits w.tables ∧ Tables.Extended ⟨c.pool, t⟩ w.tables ∧
      (Fits h c w → parse w.bytes = .ok (readBack h c w)) := by
  obtain ⟨t', bytes, middle, rest, known', members, attributes, whole⟩ := write_cases run
  rw [known] at known'
  cases known'
  have start : Tables.WellFormed limits ⟨c.pool, t⟩ := ⟨pool, table⟩
  obtain ⟨hmiddle, first, read⟩ :=
    growsWhen_traceMembers names within ⟨c.pool, t⟩ _ middle start members ready
  have texts : ∀ a ∈ withBootstraps middle.bootstraps c.attributes, limits.text a.name := by
    intro a ha
    rcases mem_withBootstraps ha with rfl | ha
    · exact names _ (by simp)
    · exact within.attributes a ha
  obtain ⟨hlast, second, readAttributes⟩ := readsAt_classAttributes texts hmiddle attributes
  have grown : Tables.Extended ⟨c.pool, t⟩ w.tables := Growing.trans _ _ _ first second
  refine ⟨hlast, grown, fun fits => ?_⟩
  rw [whole]
  obtain ⟨namesBytes, fieldBytes, methodBytes, rfl, readNames, readFields, stored, readMethods,
    decoded⟩ := read w.tables second fits.members
  have found := bootstrapsOf_withBootstraps known grown.bootstraps
    (Nat.lt_succ_of_le hlast.bootstraps.size_le) fits.arities
  exact parse_parts (readsAt_readOpening hlast.pool fits.texts c.minor c.major) readNames readFields
    readMethods (readAttributes fits.attributeCount fits.lengths) found decoded

end ClassFile

end ClassWeave
