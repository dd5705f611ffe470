import ClassWeave.Proofs.Validation

/-!
# Refused multipliers

The check of a hook file and the resolving of an encoded setter both refuse a multiplier that has
no inverse in the width of its field, or that stands on a field of another type. They part at int
fields only: resolving cuts the multiplier to an int, and the check refuses whatever is no int to
begin with, so that an odd multiplier beyond the ints is reported and resolves all the same.
-/

set_option autoImplicit false

namespace ClassWeave

def HookProblem.OfMultiplier : HookProblem → Prop
  | .multiplierType _ _ _ _ | .noInverse _ _ _ => True
  | _ => False

def ResolveError.OfMultiplier : ResolveError → Prop
  | .multiplierType _ _ _ | .evenMultiplier _ _ => True
  | _ => False

theorem exists_error_iff {ε α : Type} {x : Except ε α} :
    (∃ e, x = .error e) ↔ ¬ ∃ a, x = .ok a := by
  cases x <;> simp

namespace FieldHook

def Stuck (h : FieldHook) (type : FieldType) : Prop :=
  ∃ k, h.multiplier = some k ∧ ((type ≠ .int ∧ type ≠ .long) ∨ ¬ Odd k.toInt)

/-- The multiplier of an int field is odd, but no int. -/
def Overwide (h : FieldHook) : Prop :=
  ∃ k, h.multiplier = some k ∧ h.desc = "I" ∧ Odd k.toInt ∧ ¬ (-2147483648 ≤ k ∧ k ≤ 2147483647)

variable {h : FieldHook} {type : FieldType}

theorem stuck_iff {k : Int64} (some_k : h.multiplier = some k) :
    h.Stuck type ↔ (type ≠ .int ∧ type ≠ .long) ∨ ¬ Odd k.toInt := by
  simp only [Stuck, some_k, Option.some.injEq, exists_eq_left']

theorem not_stuck (unscaled : h.multiplier = none) : ¬ h.Stuck type := by
  simp [Stuck, unscaled]

theorem overwide_iff {k : Int64} (some_k : h.multiplier = some k) (int : h.desc = "I") :
    h.Overwide ↔ Odd k.toInt ∧ ¬ (-2147483648 ≤ k ∧ k ≤ 2147483647) := by
  simp only [Overwide, some_k, int, Option.some.injEq, exists_eq_left', true_and]

theorem not_overwide (unscaled : h.multiplier = none) : ¬ h.Overwide := by
  simp [Overwide, unscaled]

/-! The factor of a setter -/

theorem scalable_of_parse (parsed : FieldType.parse h.desc = .ok type)
    (known : ¬ (type ≠ .int ∧ type ≠ .long)) : Edit.Scalable type h.desc := by
  rw [FieldType.eq_text_of_parse parsed]
  cases type with
  | int => exact .int
  | long => exact .long
  | _ => exact absurd ⟨by simp, by simp⟩ known

theorem blamesOnly_decodeFactor (parsed : FieldType.parse h.desc = .ok type) :
    BlamesOnly ResolveError.OfMultiplier h.decodeFactor := by
  unfold decodeFactor
  split
  · exact .ok
  · rw [parsed]
    dsimp only
    split
    · exact .error trivial
    · split
      · exact .error trivial
      · exact .ok

theorem blamesOnly_encodeFactor (parsed : FieldType.parse h.desc = .ok type) :
    BlamesOnly ResolveError.OfMultiplier h.encodeFactor := by
  refine (blamesOnly_decodeFactor parsed).bind fun factor _ => ?_
  cases factor with
  | none => exact .ok
  | some k =>
    dsimp only
    split
    · exact .ok
    · exact .error trivial

theorem encodeFactor_fails_iff (parsed : FieldType.parse h.desc = .ok type) :
    (∃ e, h.encodeFactor = .error e) ↔ h.Stuck type := by
  by_cases known : type ≠ .int ∧ type ≠ .long
  · cases found : h.multiplier with
    | none =>
      have stores : h.encodeFactor = .ok none := by
        rw [encodeFactor, decodeFactor, found]
        rfl
      rw [stores]
      refine iff_of_false ?_ (not_stuck found)
      rintro ⟨_, ⟨⟩⟩
    | some k =>
      have fails : h.encodeFactor = .error (.multiplierType h.name h.desc k) := by
        rw [encodeFactor, decodeFactor, found]
        dsimp only
        rw [parsed]
        dsimp only
        rw [if_pos known]
        rfl
      exact iff_of_true ⟨_, fails⟩ ⟨k, found, .inl known⟩
  · rw [exists_error_iff, exists_encodeFactor (scalable_of_parse parsed known)]
    simp only [Stuck, known, false_or, not_forall, exists_prop]

/-! The check of a hook -/

theorem hasInverse32_iff (k : Int64) : HookFile.hasInverse32 k = true ↔
    (-2147483648 ≤ k ∧ k ≤ 2147483647) ∧ Odd k.toInt := by
  unfold HookFile.hasInverse32
  split
  · rename_i fits
    rw [Multiplier.isSome_inverse32, Multiplier.odd_toInt32, and_iff_right fits]
  · rename_i wide
    exact iff_of_false Bool.false_ne_true fun both => wide both.1

theorem Overwide.int (wide : h.Overwide) (parsed : FieldType.parse h.desc = .ok type) :
    type = .int := by
  obtain ⟨k, _, int, _⟩ := wide
  rw [int, Edit.Scalable.int.parse] at parsed
  exact (Except.ok.inj parsed).symm

theorem Overwide.not_stuck (wide : h.Overwide) (parsed : FieldType.parse h.desc = .ok type) :
    ¬ h.Stuck type := by
  have int := wide.int parsed
  obtain ⟨k, some_k, _, odd, _⟩ := wide
  rw [stuck_iff some_k]
  exact not_or.2 ⟨fun other => other.1 int, not_not.2 odd⟩

theorem reported_unless {inverse : Bool} (p : HookProblem) (own : p.OfMultiplier) :
    (∃ p' ∈ (if inverse then [] else [p]), p'.OfMultiplier) ↔ ¬ inverse = true := by
  cases inverse <;> simp [own]

theorem fieldProblems_iff (parsed : FieldType.parse h.desc = .ok type) (owner : String) :
    (∃ p ∈ HookFile.fieldProblems owner h, p.OfMultiplier) ↔ h.Stuck type ∨ h.Overwide := by
  unfold HookFile.fieldProblems
  rw [parsed]
  dsimp only
  cases found : h.multiplier with
  | none =>
    exact iff_of_false (by simp) (not_or.2 ⟨not_stuck found, not_overwide found⟩)
  | some k =>
    rw [stuck_iff found]
    cases type with
    | int =>
      have int : h.desc = "I" := FieldType.eq_text_of_parse parsed
      dsimp only
      rw [reported_unless (.noInverse owner h.name k) trivial, hasInverse32_iff,
        overwide_iff found int]
      simp only [ne_eq, not_true_eq_false, false_and, false_or]
      tauto
    | long =>
      have narrow : ¬ h.Overwide := fun wide => nomatch wide.int parsed
      dsimp only
      rw [reported_unless (.noInverse owner h.name k) trivial, Multiplier.isSome_inverse64]
      simp only [ne_eq, not_true_eq_false, and_false, false_or, narrow, or_false]
    | _ => exact iff_of_true ⟨_, List.mem_singleton_self _, trivial⟩ (.inl (.inl (by simp)))

end FieldHook

/-! The check of a file -/

namespace HookFile

/-- The file has the hook, a member of the class hook `owner` or a static one. The owner that the
table gives it counts. -/
def Checks (file : HookFile) (owner : String) (h : FieldHook) : Prop :=
  (∃ c ∈ file.classes, c.name = owner ∧ h ∈ c.adoptMembers.fields) ∨
    (owner = staticOwner ∧ h ∈ file.staticFields)

/-- The check of the file complains about the multiplier of the hook. -/
def Reports (file : HookFile) (owner : String) (h : FieldHook) : Prop :=
  ∃ p ∈ file.problems, p.OfMultiplier ∧ p ∈ fieldProblems owner h

theorem mem_inTurn {α : Type} {name : α → String} {repeated : α → HookProblem}
    {problems : α → List HookProblem} {p : HookProblem} (other : ∀ a, p ≠ repeated a)
    {seen : List String} {as : List α} :
    p ∈ inTurn name repeated problems seen as ↔ ∃ a ∈ as, p ∈ problems a := by
  induction as generalizing seen with
  | nil => simp [inTurn]
  | cons a as ih =>
    have complaint : p ∉ (if seen.contains (name a) then [repeated a] else []) := by
      split
      · exact fun mem => other a (List.mem_singleton.1 mem)
      · exact List.not_mem_nil
    rw [inTurn, List.mem_append, List.mem_append, or_iff_right complaint, ih,
      List.exists_mem_cons_iff]

theorem not_ofMultiplier_of_methodProblems {owner : String} {m : MethodHook} {p : HookProblem}
    (mem : p ∈ methodProblems owner m) : ¬ p.OfMultiplier := by
  unfold methodProblems at mem
  split at mem
  · rw [List.mem_singleton.1 mem]
    exact id
  · cases mem

theorem mem_classProblems {c : ClassHook} {p : HookProblem} (own : p.OfMultiplier) :
    p ∈ classProblems c ↔ ∃ h ∈ c.adoptMembers.fields, p ∈ fieldProblems c.name h := by
  have field (f : FieldHook) : p ≠ .repeatedField c.name f.name := by
    rintro rfl
    exact own
  have method (m : MethodHook) : p ≠ .repeatedMethod c.name m.name := by
    rintro rfl
    exact own
  rw [classProblems, List.mem_append, mem_inTurn field, mem_inTurn method]
  constructor
  · rintro (⟨f, mem, found⟩ | ⟨m, _, found⟩)
    · exact ⟨_, List.mem_map_of_mem mem, found⟩
    · exact absurd own (not_ofMultiplier_of_methodProblems found)
  · rintro ⟨h, mem, found⟩
    obtain ⟨f, written, rfl⟩ := List.mem_map.1 mem
    exact .inl ⟨f, written, found⟩

theorem mem_problems_iff {file : HookFile} {p : HookProblem} (own : p.OfMultiplier) :
    p ∈ file.problems ↔ ∃ owner h, file.Checks owner h ∧ p ∈ fieldProblems owner h := by
  have repeated (c : ClassHook) : p ≠ .repeatedClass c.name := by
    rintro rfl
    exact own
  rw [problems, List.mem_append, List.mem_append, mem_inTurn repeated]
  constructor
  · rintro ((⟨c, inFile, found⟩ | found) | found)
    · obtain ⟨h, inClass, found⟩ := (mem_classProblems own).1 found
      exact ⟨c.name, h, .inl ⟨c, inFile, rfl, inClass⟩, found⟩
    · obtain ⟨f, inFile, found⟩ := List.mem_flatMap.1 found
      rcases List.mem_append.1 found with found | found
      · split at found
        · rw [List.mem_singleton.1 found] at own
          exact own.elim
        · cases found
      · exact ⟨staticOwner, f, .inr ⟨rfl, inFile⟩, found⟩
    · obtain ⟨m, _, found⟩ := List.mem_flatMap.1 found
      rcases List.mem_append.1 found with found | found
      · split at found
        · rw [List.mem_singleton.1 found] at own
          exact own.elim
        · cases found
      · exact absurd own (not_ofMultiplier_of_methodProblems found)
  · rintro ⟨owner, h, ⟨c, inFile, rfl, inClass⟩ | ⟨rfl, inFile⟩, found⟩
    · exact .inl (.inl ⟨c, inFile, (mem_classProblems own).2 ⟨h, inClass, found⟩⟩)
    · exact .inl (.inr (List.mem_flatMap.2 ⟨h, inFile, List.mem_append_right _ found⟩))

theorem reports_iff {file : HookFile} {owner : String} {h : FieldHook} {type : FieldType}
    (checked : file.Checks owner h) (parsed : FieldType.parse h.desc = .ok type) :
    file.Reports owner h ↔ h.Stuck type ∨ h.Overwide := by
  rw [← FieldHook.fieldProblems_iff parsed owner]
  constructor
  · rintro ⟨p, _, own, found⟩
    exact ⟨p, found, own⟩
  · rintro ⟨p, found, own⟩
    exact ⟨p, (mem_problems_iff own).2 ⟨owner, h, checked, found⟩, own, found⟩

end HookFile

namespace Mixin

/-- Whose field the setter is about, in the words of the check. -/
def scope (m : Mixin) (s : MixinSetter) : String :=
  if s.isStatic then HookFile.staticOwner else m.target

/-- The mixin has one declaration, an encoding setter on the hook `h`, and nothing is wrong with
it unless it is the hook. -/
structure OnlyEncodes (m : Mixin) (t : HookTable) (s : MixinSetter) (h : FieldHook) : Prop where
  fields : m.fields = []
  getters : m.getters = []
  setters : m.setters = [s]
  invokers : m.invokers = []
  callbacks : m.callbacks = []
  copies : m.copies = []
  replacements : m.replacements = []
  methods : m.methods = []
  encodes : s.encode = true
  target : ∃ c, t.classHook m.target = .ok c
  declared : m.requireAbstract s.method .setter = .ok ()
  hooked : m.fieldHook t s.hook s.isStatic = .ok h

variable {m : Mixin} {s : MixinSetter} {h : FieldHook}

theorem checks_of_fieldHook {file : HookFile}
    (hooked : m.fieldHook (HookTable.ofFile file) s.hook s.isStatic = .ok h) :
    file.Checks (m.scope s) h := by
  unfold fieldHook at hooked
  unfold scope
  split at hooked
  · rename_i static
    rw [if_pos static]
    unfold HookTable.staticField at hooked
    split at hooked
    · rename_i found
      cases hooked
      obtain ⟨f, inFile, _, rfl⟩ := getElem?_foldl_insert_empty found
      exact .inr ⟨rfl, inFile⟩
    · cases hooked
  · rename_i bound
    rw [if_neg bound]
    obtain ⟨c, inTable, hooked⟩ := bind_ok_iff.1 hooked
    obtain ⟨c, inFile, named, rfl⟩ :=
      getElem?_foldl_insert_empty (HookTable.classes_of_classHook inTable)
    split at hooked
    · rename_i inClass
      cases hooked
      exact .inl ⟨c, inFile, named, List.mem_reverse.1 (List.mem_of_find?_eq_some inClass)⟩
    · cases hooked

namespace OnlyEncodes

variable {t : HookTable} (only : m.OnlyEncodes t s h)

include only

theorem setterEdit_eq (target : String) (r : Renaming) : m.setterEdit t target r s =
    (fun factor => before target (.addSetter s.method.name (r.desc s.method.desc) h.member
      s.isStatic factor)) <$> h.encodeFactor := by
  rw [setterEdit, only.declared, only.hooked, only.encodes]
  show (h.decodeFactor >>= fun _ => h.encodeFactor >>= fun factor => pure _) = _
  cases reads : h.decodeFactor with
  | error e =>
    rw [FieldHook.encodeFactor, reads]
    rfl
  | ok decode =>
    cases h.encodeFactor <;> rfl

theorem resolve_eq :
    ∃ edits : Option Int64 → List PlannedEdit, m.resolve t = edits <$> h.encodeFactor := by
  obtain ⟨c, found⟩ := only.target
  obtain ⟨r, rules⟩ : ∃ r, m.rules t c.obfName = .ok r := by
    unfold rules
    rw [only.fields]
    cases m.compiled <;> exact ⟨_, rfl⟩
  refine ⟨fun factor => Parts.edits ⟨[], [], [before c.obfName (.addSetter s.method.name
    (r.desc s.method.desc) h.member s.isStatic factor)], [], [], [], []⟩ m c.obfName r, ?_⟩
  rw [resolve, found]
  show (m.rules t c.obfName >>= _) = _
  rw [rules, only.fields, only.getters, only.setters, only.invokers, only.callbacks, only.copies,
    only.replacements, only.methods]
  show ([s].mapM (m.setterEdit t c.obfName r) >>= _) = _
  rw [List.mapM_cons, only.setterEdit_eq]
  cases h.encodeFactor <;> rfl

theorem refused_iff {type : FieldType} (parsed : FieldType.parse h.desc = .ok type) :
    (∃ e : ResolveError, e.OfMultiplier ∧ m.resolve t = .error e) ↔ h.Stuck type := by
  obtain ⟨edits, resolved⟩ := only.resolve_eq
  rw [resolved, ← FieldHook.encodeFactor_fails_iff parsed]
  have own := FieldHook.blamesOnly_encodeFactor parsed
  cases stores : h.encodeFactor with
  | error e => exact iff_of_true ⟨e, own e stores, rfl⟩ ⟨e, rfl⟩
  | ok factor =>
    refine iff_of_false ?_ ?_
    · rintro ⟨_, _, ⟨⟩⟩
    · rintro ⟨_, ⟨⟩⟩

end OnlyEncodes

/-- What the check of the hook file says about a multiplier is what an encoding setter meets. Only
of an odd multiplier that is too wide for its int field the check complains in vain. -/
theorem reported_iff_refused {file : HookFile} {m : Mixin} {s : MixinSetter} {h : FieldHook}
    {type : FieldType} (only : m.OnlyEncodes (HookTable.ofFile file) s h)
    (parsed : FieldType.parse h.desc = .ok type) :
    (¬ h.Overwide → (file.Reports (m.scope s) h ↔
      ∃ e : ResolveError, e.OfMultiplier ∧ m.resolve (HookTable.ofFile file) = .error e)) ∧
    (h.Overwide → file.Reports (m.scope s) h ∧
      ∃ edits, m.resolve (HookTable.ofFile file) = .ok edits) := by
  have reports := HookFile.reports_iff (checks_of_fieldHook only.hooked) parsed
  constructor
  · intro narrow
    rw [reports, or_iff_left narrow, only.refused_iff parsed]
  · intro wide
    refine ⟨reports.2 (.inr wide), ?_⟩
    obtain ⟨edits, resolved⟩ := only.resolve_eq
    have stores : ∃ factor, h.encodeFactor = .ok factor := by
      by_contra fails
      exact wide.not_stuck parsed ((FieldHook.encodeFactor_fails_iff parsed).1
        (exists_error_iff.2 fails))
    obtain ⟨factor, stores⟩ := stores
    exact ⟨edits factor, by rw [resolved, stores]; rfl⟩

def scoreFile (k : Int64) : HookFile where
  classes := [⟨"Player", "a", [⟨"score", "", "s", "I", some k⟩], []⟩]
  staticFields := []
  staticMethods := []

def scoreHook (k : Int64) : FieldHook := ⟨"score", "a", "s", "I", some k⟩

def scoreSetter : MixinSetter := ⟨"score", ⟨"setScore", "(I)V", none⟩, false, true⟩

def scoreMixin : Mixin where
  target := "Player"
  compiled := none
  interfaces := []
  fields := []
  getters := []
  setters := [scoreSetter]
  invokers := []
  callbacks := []
  copies := []
  replacements := []
  methods := []

theorem classHook_scoreFile (k : Int64) : (HookTable.ofFile (scoreFile k)).classHook "Player" =
    .ok ⟨"Player", "a", [scoreHook k], []⟩ := by
  simp [HookTable.classHook, HookTable.ofFile, scoreFile, ClassHook.adoptMembers, scoreHook]

theorem onlyEncodes_scoreMixin (k : Int64) :
    scoreMixin.OnlyEncodes (HookTable.ofFile (scoreFile k)) scoreSetter (scoreHook k) where
  fields := rfl
  getters := rfl
  setters := rfl
  invokers := rfl
  callbacks := rfl
  copies := rfl
  replacements := rfl
  methods := rfl
  encodes := rfl
  target := ⟨_, classHook_scoreFile k⟩
  declared := rfl
  hooked := bind_ok_iff.2 ⟨_, classHook_scoreFile k, rfl⟩

theorem parse_scoreHook (k : Int64) : FieldType.parse (scoreHook k).desc = .ok .int :=
  Edit.Scalable.int.parse

theorem overwide_scoreHook : (scoreHook 4294967297).Overwide :=
  ⟨4294967297, rfl, rfl, by decide, by decide⟩

theorem reported_scoreMixin :
    ((scoreFile 6).Reports "Player" (scoreHook 6) ∧ ∃ e : ResolveError, e.OfMultiplier ∧
      scoreMixin.resolve (HookTable.ofFile (scoreFile 6)) = .error e) ∧
    ((scoreFile 4294967297).Reports "Player" (scoreHook 4294967297) ∧
      ∃ edits, scoreMixin.resolve (HookTable.ofFile (scoreFile 4294967297)) = .ok edits) := by
  have even : (scoreFile 6).Reports "Player" (scoreHook 6) :=
    ⟨.noInverse "Player" "score" 6, by decide +kernel, trivial, by decide +kernel⟩
  have narrow : ¬ (scoreHook 6).Overwide := by
    rw [FieldHook.overwide_iff rfl rfl]
    decide
  obtain ⟨agrees, _⟩ := reported_iff_refused (onlyEncodes_scoreMixin 6) (parse_scoreHook 6)
  obtain ⟨_, parts⟩ :=
    reported_iff_refused (onlyEncodes_scoreMixin 4294967297) (parse_scoreHook 4294967297)
  exact ⟨⟨even, (agrees narrow).1 even⟩, parts overwide_scoreHook⟩

/-- The multiplier 2³² + 1 is reported and resolves. -/
theorem reported_in_vain :
    ¬ ∀ (file : HookFile) (m : Mixin) (s : MixinSetter) (h : FieldHook) (type : FieldType),
      m.OnlyEncodes (HookTable.ofFile file) s h → FieldType.parse h.desc = .ok type →
      (file.Reports (m.scope s) h ↔
        ∃ e : ResolveError, e.OfMultiplier ∧ m.resolve (HookTable.ofFile file) = .error e) := by
  intro always
  have only := onlyEncodes_scoreMixin 4294967297
  have parsed := parse_scoreHook 4294967297
  have agrees := always _ _ _ _ _ only parsed
  have reported := (HookFile.reports_iff (checks_of_fieldHook only.hooked) parsed).2
    (.inr overwide_scoreHook)
  exact overwide_scoreHook.not_stuck parsed ((only.refused_iff parsed).1 (agrees.1 reported))

end Mixin

end ClassWeave
