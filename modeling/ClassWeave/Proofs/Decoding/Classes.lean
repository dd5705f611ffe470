import Mathlib.Data.List.Forall2
import Mathlib.Tactic.Common
import ClassWeave.Proofs.Decoding.Bodies
import ClassWeave.Proofs.Descriptor
import ClassWeave.Proofs.Written

/-!
# Decoded classes

A class that was read has a well-formed pool and a table of bootstrap methods, its counts fit the
fields they came from, and its bodies are made of parts that a reader accepts.
-/

set_option autoImplicit false

namespace ClassWeave

namespace ClassFile

def bodyContext (c : ClassFile) (t : BootstrapTable) (m : Method) : BodyContext :=
  ⟨c.pool, t, c.name, m.access, m.name, m.desc⟩

structure FieldSane (limits : Limits) (f : Field) : Prop where
  within : f.Within limits
  attributeCount : f.attributes.length < 65536
  lengths : ∀ a ∈ f.attributes, a.Fits

structure MethodSane (limits : Limits) (c : ClassFile) (t : BootstrapTable) (m : Method) :
    Prop where
  name : limits.text m.name
  desc : limits.text m.desc
  attributes : ∀ a ∈ m.attributes, limits.text a.name ∧ a.Fits
  attributeCount : m.code.toList.length + m.attributes.length < 65536
  names : ∀ a ∈ m.attributes, a.name ≠ "Code"
  body : EntrySane limits (c.bodyContext t m) → ∀ code, m.code = some code →
    ∃ b : BodyParts, b.Sane limits (c.bodyContext t m) ∧ code = b.code

structure Sane (limits : Limits) (c : ClassFile) (t : BootstrapTable) : Prop where
  pool : c.pool.WellFormed limits
  table : t.WellFormed limits
  name : limits.text c.name
  superName : ∀ name, c.superName = some name → limits.text name
  interfaces : c.interfaces.length < 65536 ∧ ∀ name ∈ c.interfaces, limits.text name
  fields : c.fields.length < 65536 ∧ ∀ f ∈ c.fields, FieldSane limits f
  methods : c.methods.length < 65536 ∧ ∀ m ∈ c.methods, MethodSane limits c t m
  attributes : c.attributes.length < 65536 ∧ ∀ a ∈ c.attributes, limits.text a.name ∧ a.Fits

variable {limits : Limits} {p : Pool}

theorem yields_readUtf8 (hp : p.WellFormed limits) : Yields (readUtf8 p) limits.text :=
  .bind (.trivial _) fun _ _ => .lift fun _ h => Pool.text_of_utf8 hp h

theorem yields_readField (hp : p.WellFormed limits) : Yields (readField p) (FieldSane limits) := by
  refine .bind (.trivial _) fun access _ => .bind (yields_readUtf8 hp) fun name hn => ?_
  refine .bind (yields_readUtf8 hp) fun desc hd => .bind (yields_readAttributes hp) fun as has => ?_
  exact .pure ⟨⟨hn, hd, fun a ha => (has.2 a ha).1⟩, has.1, fun a ha => (has.2 a ha).2⟩

structure StoredSane (limits : Limits) (m : StoredMethod) : Prop where
  name : limits.text m.name
  desc : limits.text m.desc
  attributeCount : m.attributes.length < 65536
  attributes : ∀ a ∈ m.attributes, limits.text a.name ∧ a.Fits

theorem yields_readMethod (hp : p.WellFormed limits) :
    Yields (readMethod p) (StoredSane limits) := by
  refine .bind (.trivial _) fun access _ => .bind (yields_readUtf8 hp) fun name hn => ?_
  refine .bind (yields_readUtf8 hp) fun desc hd => .bind (yields_readAttributes hp) fun as has => ?_
  exact .pure ⟨hn, hd, has.1, has.2⟩

theorem decodeMethod_cases {t : BootstrapTable} {owner : String} {stored : StoredMethod}
    {m : Method} (h : decodeMethod p t owner stored = .ok m) :
    ∃ code : Option Code, m = ⟨stored.access, stored.name, stored.desc, code,
        stored.attributes.filter (·.name != "Code")⟩ ∧
      ∀ c, code = some c → ∃ body ∈ stored.attributes, body.name = "Code" ∧
        (readCode ⟨p, t, owner, stored.access, stored.name, stored.desc⟩).runOn body.data =
          .ok c := by
  unfold decodeMethod at h
  dsimp only at h
  split at h
  · rename_i body found
    obtain ⟨code, hcode, h⟩ := bind_ok_iff.1 h
    cases h
    refine ⟨code, rfl, fun c same => ⟨body, ?_⟩⟩
    subst same
    have mem := List.mem_filter.1 (List.mem_of_getLast? found)
    refine ⟨mem.1, beq_iff_eq.1 mem.2, ?_⟩
    change (readCode _).runOn body.data >>= (fun c => .ok (some c)) = _ at hcode
    obtain ⟨c', run, same⟩ := bind_ok_iff.1 hcode
    cases same
    exact run
  · cases h
    exact ⟨none, rfl, fun c same => nomatch same⟩

theorem methodSane_decodeMethod {c : ClassFile} {t : BootstrapTable} (hp : c.pool.WellFormed limits)
    (ht : t.WellFormed limits) {stored : StoredMethod} (hs : StoredSane limits stored) {m : Method}
    (h : decodeMethod c.pool t c.name stored = .ok m) : MethodSane limits c t m := by
  obtain ⟨code, rfl, found⟩ := decodeMethod_cases h
  refine ⟨hs.name, hs.desc, fun a ha => hs.attributes a (List.mem_filter.1 ha).1, ?_,
    fun a ha => ?_, fun entry c' same => ?_⟩
  · -- the body was among the stored attributes
    have count := hs.attributeCount
    cases code with
    | none =>
      have := List.length_filter_le (·.name != "Code") stored.attributes
      simp only [Option.toList_none, List.length_nil]
      omega
    | some c' =>
      obtain ⟨body, mem, name, _⟩ := found c' rfl
      have : (stored.attributes.filter (·.name != "Code")).length < stored.attributes.length :=
        List.length_filter_lt_length_iff_exists.2 ⟨body, mem, by simp [name]⟩
      simp only [Option.toList_some, List.length_singleton]
      omega
  · simpa using (List.mem_filter.1 ha).2
  · obtain ⟨body, _, _, run⟩ := found c' same
    exact Yields.runOn (yields_readCode hp ht entry) run

theorem wellFormed_parse {bytes : Bytes} {t : BootstrapTable}
    (h : BootstrapTable.parse bytes = .ok t)
    (arities : ∀ e ∈ t.toList, limits.arity e.args.length) : t.WellFormed limits := by
  refine ⟨?_, arities⟩
  have size : Yields BootstrapTable.read fun t => t.toList.length < 65536 := by
    refine .bind (.counted (.trivial _)) fun entries he => .bind (.trivial _) fun left _ => ?_
    refine .ite (fun _ => .bind .throw fun _ (h : False) => h.elim) fun _ => .pure ?_
    rw [BootstrapTable.toList_ofEntries]
    exact he.1
  exact Nat.le_of_lt_succ (size.runOn h)

theorem wellFormed_bootstrapsOf {attributes : List Attribute} {t : BootstrapTable}
    (h : bootstrapsOf attributes = .ok t) (arities : ∀ e ∈ t.toList, limits.arity e.args.length) :
    t.WellFormed limits := by
  unfold bootstrapsOf at h
  split at h
  · exact wellFormed_parse h arities
  · cases h
    exact ⟨Nat.zero_le _, arities⟩

theorem arity_of_parse {bytes : Bytes} {t : BootstrapTable}
    (h : BootstrapTable.parse bytes = .ok t) : ∀ e ∈ t.toList, e.args.length < 65536 := by
  have entry : Yields BootstrapTable.readEntry fun e => e.args.length < 65536 := by
    refine .bind (.trivial _) fun handle _ => ?_
    exact .bind (.counted (P := fun _ => True) (.trivial _)) fun args ha => .pure ha.1
  have arities : Yields BootstrapTable.read fun t => ∀ e ∈ t.toList, e.args.length < 65536 := by
    refine .bind (.counted entry) fun entries he => .bind (.trivial _) fun left _ => ?_
    refine .ite (fun _ => .bind .throw fun _ (h : False) => h.elim) fun _ => .pure ?_
    rw [BootstrapTable.toList_ofEntries]
    exact he.2
  exact arities.runOn h

theorem arity_of_bootstrapsOf {attributes : List Attribute} {t : BootstrapTable}
    (h : bootstrapsOf attributes = .ok t) : ∀ e ∈ t.toList, e.args.length < 65536 := by
  unfold bootstrapsOf at h
  split at h
  · exact arity_of_parse h
  · cases h
    exact fun e he => nomatch he

theorem entrySane_of_params {ctx : BodyContext} {limits : Limits} (owner : limits.text ctx.owner)
    (params : ∀ d, MethodDescriptor.parse ctx.desc = .ok d →
      ∀ t ∈ d.params, limits.text t.internalName) :
    EntrySane limits ctx := by
  intro d hd t ht
  have object : ∀ name, limits.text name → (VType.object name).Sane limits := fun name hn =>
    ⟨hn, fun x same => nomatch same⟩
  have params : ∀ t ∈ d.params.map VType.ofFieldType, t.Sane limits := by
    intro t ht
    obtain ⟨u, hu, rfl⟩ := List.mem_map.1 ht
    have named := params d hd u hu
    unfold VType.ofFieldType
    split <;> first | exact object _ named | exact ⟨True.intro, fun x same => nomatch same⟩
  unfold entryLocals at ht
  dsimp only at ht
  split at ht
  · exact params t ht
  · split at ht
    · rcases List.mem_cons.1 ht with rfl | ht
      · exact ⟨True.intro, fun x same => nomatch same⟩
      · exact params t ht
    · rcases List.mem_cons.1 ht with rfl | ht
      · exact object _ owner
      · exact params t ht

theorem entrySane {ctx : BodyContext} {limits : Limits} (owner : limits.text ctx.owner)
    (desc : limits.text ctx.desc)
    (shorter : ∀ text text' : String, (ModifiedUtf8.encode text').length ≤
      (ModifiedUtf8.encode text).length → limits.text text → limits.text text') :
    EntrySane limits ctx :=
  entrySane_of_params owner fun _ parsed _ mem =>
    shorter _ _ (MethodDescriptor.length_encode_param parsed mem) desc

structure HeadSane (limits : Limits) (header : Header) : Prop where
  name : limits.text header.name
  superName : ∀ name, header.superName = some name → limits.text name
  interfaces : header.interfaces.length < 65536 ∧ ∀ name ∈ header.interfaces, limits.text name

theorem yields_readNames (hp : p.WellFormed limits) :
    Yields (Header.readNames p) fun r => HeadSane limits r.2 := by
  have each : Yields (Header.readClassName p) limits.text :=
    .bind (.trivial _) fun _ _ => .lift fun _ h => Pool.text_of_className hp h
  refine .bind (.trivial _) fun access _ => .bind each fun name hn =>
    .bind (.trivial _) fun i _ => ?_
  refine .ite (fun _ => .bind (P := fun parent => ∀ name, parent = some name → limits.text name)
    (.pure (by nofun)) fun parent hs => ?_) fun _ => ?_
  · exact .bind (.counted each) fun interfaces hi => .pure ⟨hn, hs, hi⟩
  · refine .bind (P := fun parent => ∀ name, parent = some name → limits.text name)
      (.map (.lift fun name h => Pool.text_of_className hp h) fun name hn => ?_) fun parent hs => ?_
    · intro name' same
      cases same
      exact hn
    · exact .bind (.counted each) fun interfaces hi => .pure ⟨hn, hs, hi⟩

theorem yields_readOpening :
    Yields Header.readOpening fun r => r.2.2.WellFormed Limits.none := by
  refine .bind (.trivial _) fun _ _ => .ite (fun _ => .bind .throw fun _ (h : False) => h.elim)
    fun _ => ?_
  refine .bind (.trivial _) fun _ _ => .bind (.trivial _) fun _ _ => ?_
  exact .bind Pool.yields_read fun pool hp => .pure hp

theorem yields_read :
    Yields read fun c => ∃ t, bootstrapsOf c.attributes = .ok t ∧ c.pool.WellFormed Limits.none ∧
      ∀ limits : Limits, (∀ text, some (.utf8 text) ∈ c.pool.toList → limits.text text) →
        (∀ e ∈ t.toList, limits.arity e.args.length) → c.Sane limits t := by
  refine .bind yields_readOpening fun opening hopening => ?_
  obtain ⟨minor, major, pool⟩ := opening
  refine .bind (.all fun limits => .all fun (hp : pool.WellFormed limits) => yields_readNames hp)
    fun r hr => ?_
  refine .bind
    (.all fun limits => .all fun (hp : pool.WellFormed limits) => .counted (yields_readField hp))
    fun fields hf => ?_
  refine .bind
    (.all fun limits => .all fun (hp : pool.WellFormed limits) => .counted (yields_readMethod hp))
    fun stored hs => ?_
  refine .bind
    (.all fun limits => .all fun (hp : pool.WellFormed limits) => yields_readAttributes hp)
    fun attributes ha => ?_
  refine .bind (.trivial _) fun left _ => .ite (fun _ => .bind .throw fun _ (h : False) => h.elim)
    fun _ => ?_
  refine .bind (.lift fun t h => h) fun t ht => .bind (.mapM_lift _ _) fun methods hm => .pure ?_
  refine ⟨t, ht, hopening, fun limits texts arities => ?_⟩
  have hp : pool.WellFormed limits := hopening.restrict texts
  have table := wellFormed_bootstrapsOf ht arities
  have head := hr limits hp
  refine ⟨hp, table, head.name, head.superName, head.interfaces, hf limits hp, ?_,
    ha limits hp⟩
  refine ⟨hm.length_eq ▸ (hs limits hp).1, fun m mem => ?_⟩
  obtain ⟨m', hm', decoded⟩ := exists_left_of_forall₂ hm mem
  exact methodSane_decodeMethod hp table ((hs limits hp).2 m' hm') decoded

theorem sane_parse {bytes : Bytes} {c : ClassFile} (h : parse bytes = .ok c) :
    ∃ t, bootstrapsOf c.attributes = .ok t ∧ c.pool.WellFormed Limits.none ∧
      ∀ limits : Limits, (∀ text, some (.utf8 text) ∈ c.pool.toList → limits.text text) →
        (∀ e ∈ t.toList, limits.arity e.args.length) → c.Sane limits t :=
  yields_read.runOn h

end ClassFile

end ClassWeave
