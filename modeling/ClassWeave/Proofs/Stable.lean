import Mathlib.Data.List.Forall2
import Mathlib.Tactic.Common
import ClassWeave.Proofs.RoundTrip
import ClassWeave.Proofs.Written.Again

/-!
# Classes that are stable under reading and writing

A class that was read is changed by being written at most once: its pool may gain the constants
that the writer looks for, flags without a stored form are lost, and labels move. What comes of it
is read back and written, under any hierarchy, in the same bytes again.
-/

set_option autoImplicit false

namespace ClassWeave

theorem Code.Countable.unflagged {code : Code} (h : code.Countable) :
    code.unflagged.Countable where
  lines := by
    have same : Insn.isLine ∘ Insn.unflagged = Insn.isLine := by
      funext i
      cases i <;> rfl
    rw [Code.unflagged, List.countP_map, same]
    exact h.lines
  plain := h.plain
  generic := h.generic

namespace ClassFile

variable {limits : Limits} {h : Hierarchy} {c : ClassFile} {t : BootstrapTable}

theorem withBootstraps_withBootstraps (attributes : List Attribute) :
    withBootstraps t (withBootstraps t attributes) = withBootstraps t attributes := by
  have replaced : ∀ as : List Attribute, withBootstraps.replace t (withBootstraps.replace t as) =
      withBootstraps.replace t as := by
    intro as
    induction as with
    | nil => rfl
    | cons a as ih =>
      cases named : a.name == BootstrapTable.attributeName with
      | true => simp [withBootstraps.replace, named]
      | false => simp [withBootstraps.replace, named, ih]
  unfold withBootstraps
  split
  · rfl
  · exact replaced attributes

theorem write_readBack {w : Written}
    (start : Tables.WellFormed Limits.none ⟨c.pool, t⟩) (known : bootstrapsOf c.attributes = .ok t)
    (decoded : ∀ m ∈ c.methods, Decoded limits (c.bodyContext t m) m) (run : write h c = .ok w)
    (unwidened : w.bodies.map (Option.map WrittenBody.code) = c.methods.map Method.code)
    (found : bootstrapsOf (readBack h c w).attributes = .ok w.tables.bootstraps)
    (h' : Hierarchy) :
    write h' (readBack h c w) = .ok { w with
      bodies := List.zipWith (fun m => Option.map (WrittenBody.again ⟨h, c.name, c.major, m⟩))
        c.methods w.bodies } := by
  obtain ⟨t', members, middle, attributes, known', traced, stored, bytes⟩ := write_cases run
  rw [known] at known'
  cases known'
  obtain ⟨hmiddle, _, again⟩ := again_traceMembers decoded h' w.tables.pool
    (withBootstraps w.tables.bootstraps c.attributes) _ _ middle start traced unwidened
  obtain ⟨_, rest, repeats⟩ := Repeats.encodeAttributes _ middle _ w.tables hmiddle stored
  have kept : w.tables.bootstraps = middle.bootstraps := bootstraps_encodeAttributes stored
  have stored' : encodeAttributes
      (withBootstraps w.tables.bootstraps (readBack h c w).attributes) w.tables =
        (.ok attributes, w.tables) := by
    show encodeAttributes (withBootstraps _ (withBootstraps w.tables.bootstraps c.attributes)) _ = _
    rw [withBootstraps_withBootstraps, kept]
    exact repeats attributes rfl w.tables (Growing.refl _)
  have written := write_of_parts (c := readBack h c w) found (again w.tables rest) stored'
  rw [written, bytes]
  rfl

/-- The class is written as it stands: with its pool, its bootstrap methods and its bodies. -/
structure WrittenAs (h : Hierarchy) (c : ClassFile) (w : Written) : Prop where
  run : write h c = .ok w
  pool : w.tables.pool = c.pool
  bootstraps : bootstrapsOf c.attributes = .ok w.tables.bootstraps
  bodies : w.bodies.map (Option.map WrittenBody.code) = c.methods.map Method.code

theorem Sane.decoded (sane : c.Sane limits t) (shorter : ∀ text text' : String,
      (ModifiedUtf8.encode text').length ≤ (ModifiedUtf8.encode text).length →
        limits.text text → limits.text text') :
    ∀ m ∈ c.methods, Decoded limits (c.bodyContext t m) m := fun m hm =>
  (sane.methods.2 m hm).body (entrySane sane.name (sane.methods.2 m hm).desc shorter)

theorem codes_unflagged {w : Written}
    (same : w.bodies.map (Option.map WrittenBody.code) = c.methods.map Method.code) :
    w.unflagged.bodies.map (Option.map WrittenBody.code) = c.unflagged.methods.map Method.code := by
  have bodies : ∀ body : Option WrittenBody, (body.map WrittenBody.unflagged).map
      WrittenBody.code = (body.map WrittenBody.code).map Code.unflagged := by
    intro body
    cases body <;> rfl
  have cleared := congrArg (List.map (Option.map Code.unflagged)) same
  rw [List.map_map, List.map_map] at cleared
  show (w.bodies.map _).map _ = (c.methods.map _).map _
  rw [List.map_map, List.map_map]
  exact (List.map_congr_left fun body _ => bodies body).trans cleared

theorem codes_again (methods : List Method) (bodies : List (Option WrittenBody)) :
    (List.zipWith (fun m => Option.map (WrittenBody.again ⟨h, c.name, c.major, m⟩)) methods
      bodies).map (Option.map WrittenBody.code) =
        (List.zipWith (readBackMethod h c.name c.major) methods bodies).map Method.code := by
  rw [List.map_zipWith, List.map_zipWith]
  congr 1
  funext m body
  cases body <;> rfl

/-- What is written of a class that was read is read back and, under any hierarchy, written in the
same bytes: nothing is added to the pool or the bootstrap methods, and no body is changed. What is
asked is that texts and counts fit the two bytes they have, and that the bodies and the bootstrap
methods fit into attributes, which have four bytes for their lengths. -/
theorem stable_encode {bytes bytes' : Bytes} (parsed : parse bytes = .ok c)
    (written : encode h c = .ok bytes') (unwidened : Unwidened h c)
    (texts : ∀ text, some (.utf8 text) ∈ c.pool.toList → (ModifiedUtf8.encode text).length ≤ 65535)
    (counts : ∀ m ∈ c.methods, ∀ code, m.code = some code → code.Countable)
    (lengths : ∀ w, write h c = .ok w →
      (∀ b, some b ∈ w.bodies → b.bytes.length < 4294967296) ∧
        w.tables.bootstraps.encode.length < 4294967296) :
    ∃ c', parse bytes' = .ok c' ∧
      ∀ h', encode h' c' = .ok bytes' ∧ ∃ w, WrittenAs h' c' w := by
  obtain ⟨t, known, pool, all⟩ := sane_parse parsed
  have bare : c.Sane Limits.none t := all Limits.none (fun _ _ => True.intro) fun _ _ => True.intro
  have sane : c.Sane (keptLimits t) t :=
    all (keptLimits t) (fun text ht => Nat.lt_succ_of_le (texts text ht)) (keptLimits_arity known)
  have decoded := bare.decoded fun _ _ _ _ => True.intro
  have narrow : ∀ m ∈ c.methods, ∀ code, m.code = some code → code.Narrow := by
    intro m hm code same
    obtain ⟨b, hb, rfl⟩ := decoded m hm code same
    exact hb.narrow
  obtain ⟨w, run, rfl⟩ := write_of_encode written
  have same := unwidened w run
  -- the flags of field handles have no stored form, so the class is read back without them
  have run' := write_unflagged narrow run same
  have same' := codes_unflagged same
  obtain ⟨bodyLengths, tableLength⟩ := lengths w run
  obtain ⟨read, found, _⟩ := rewritten_write sane.unflagged known run' same'
    (List.forall_mem_map.2 fun m hm code' cleared => by
      obtain ⟨code, same, rfl⟩ := Option.map_eq_some_iff.1 cleared
      obtain ⟨b, hb, rfl⟩ := decoded m hm code same
      exact hb.resolvable_unflagged)
    (List.forall_mem_map.2 fun m hm code' cleared => by
      obtain ⟨code, same, rfl⟩ := Option.map_eq_some_iff.1 cleared
      exact (counts m hm code same).unflagged)
    (fun b hb => by
      obtain ⟨body, mem, cleared⟩ := List.mem_map.1 hb
      obtain ⟨b, rfl, rfl⟩ := Option.map_eq_some_iff.1 cleared
      exact bodyLengths b mem)
    (fun a ha => by
      rcases mem_withBootstraps ha with rfl | ha
      · exact tableLength
      · exact (sane.attributes.2 a ha).2)
  refine ⟨_, read, fun h' => ?_⟩
  have again := write_readBack (c := c.unflagged) ⟨pool, bare.table⟩ known
    (bare.unflagged.decoded fun _ _ _ _ => True.intro) run' same' found h'
  refine ⟨?_, _, again, rfl, found, codes_again _ _⟩
  rw [encode_eq, again]
  rfl

/-- A class whose name stands twice in its pool. Its method loads a handle that reads a field, but
refers to the method of an interface. -/
def flaggedHandle : Bytes :=
  [0xCA, 0xFE, 0xBA, 0xBE, 0, 0, 0, 50, 0, 10,
    1, 0, 1, 65, 1, 0, 1, 65, 7, 0, 2, 1, 0, 1, 109, 1, 0, 3, 40, 41, 86,
    1, 0, 4, 67, 111, 100, 101, 12, 0, 4, 0, 5, 11, 0, 3, 0, 7, 15, 1, 0, 8,
    0, 33, 0, 3, 0, 0, 0, 0, 0, 0, 0, 1, 0, 9, 0, 4, 0, 5, 0, 1,
    0, 6, 0, 0, 0, 16, 0, 1, 0, 0, 0, 0, 0, 4, 18, 9, 87, 177, 0, 0, 0, 0, 0, 0]

/-- The first writing gives the class the first entry for its name and the handle a field to read;
the second one adds nothing. -/
theorem stable_flaggedHandle : ∃ c bytes c', parse flaggedHandle = .ok c ∧
    encode Hierarchy.empty c = .ok bytes ∧ bytes ≠ flaggedHandle ∧ parse bytes = .ok c' ∧
      ∀ h', encode h' c' = .ok bytes ∧ ∃ w, WrittenAs h' c' w := by
  have computed : ((parse flaggedHandle).toOption.any fun c =>
      (write Hierarchy.empty c).toOption.any fun w =>
        w.bodies.map (Option.map WrittenBody.code) = c.methods.map Method.code ∧
          c.pool.toList = [none, some (.utf8 "A"), some (.utf8 "A"), some (.type 2),
            some (.utf8 "m"), some (.utf8 "()V"), some (.utf8 "Code"), some (.nameAndType 4 5),
            some (.interfaceMethod 3 7), some (.methodHandle 1 8)] ∧
          c.methods.map (fun m => m.code.map fun b => (b.insns.length, b.locals)) =
            [some (3, [])] ∧
          w.bytes.length = 108 ∧ w.bodies.map (Option.map (·.bytes.length)) = [some 16] ∧
          w.tables.bootstraps.encode.length = 2) = true := by
    decide +kernel
  obtain ⟨c, parsed, computed⟩ := exists_ok_of_any computed
  obtain ⟨w, run, computed⟩ := exists_ok_of_any computed
  obtain ⟨same, pool, bodies, length, sizes, table⟩ := of_decide_eq_true computed
  have written : encode Hierarchy.empty c = .ok w.bytes := by
    rw [encode_eq, run]
    rfl
  have unwidened : Unwidened Hierarchy.empty c := by
    intro w' run'
    rw [run] at run'
    cases run'
    exact same
  have texts : ∀ text, some (.utf8 text) ∈ c.pool.toList →
      (ModifiedUtf8.encode text).length ≤ 65535 := by
    intro text mem
    simp only [pool, List.mem_cons, Option.some.injEq, Constant.utf8.injEq, reduceCtorEq,
      List.not_mem_nil, or_false, false_or] at mem
    rcases mem with rfl | rfl | rfl | rfl | rfl <;> decide
  have counts : ∀ m ∈ c.methods, ∀ code, m.code = some code → code.Countable := by
    intro m hm code hcode
    have known := List.mem_map_of_mem
      (f := fun m : Method => m.code.map fun b => (b.insns.length, b.locals)) hm
    rw [bodies, hcode, List.mem_singleton] at known
    obtain ⟨three, empty⟩ := Prod.mk.inj (Option.some.inj known)
    have few := List.countP_le_length (p := Insn.isLine) (l := code.insns)
    refine ⟨by omega, ?_, ?_⟩ <;> rw [empty] <;> decide
  have lengths : ∀ w, write Hierarchy.empty c = .ok w →
      (∀ b, some b ∈ w.bodies → b.bytes.length < 4294967296) ∧
        w.tables.bootstraps.encode.length < 4294967296 := by
    intro w' run'
    rw [run] at run'
    cases run'
    refine ⟨fun b hb => ?_, by omega⟩
    have known := List.mem_map_of_mem (f := Option.map (·.bytes.length)) hb
    rw [sizes, List.mem_singleton] at known
    have size : b.bytes.length = 16 := Option.some.inj known
    omega
  obtain ⟨c', again, stable⟩ :=
    stable_encode parsed written unwidened texts counts lengths
  refine ⟨c, w.bytes, c', parsed, written, fun unchanged => ?_, again, stable⟩
  rw [unchanged] at length
  exact absurd length (by decide)

end ClassFile

end ClassWeave
