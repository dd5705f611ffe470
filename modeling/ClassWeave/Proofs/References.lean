import Mathlib.Data.List.Infix
import ClassWeave.Proofs.Renaming
import ClassWeave.Proofs.RoundTrip

/-!
# The classes that a class refers to

A type operand names a class or describes an array, and a descriptor names the classes of its
types. The names stand in the text of a descriptor between an `L` and the next semicolon. All of
them are texts of the pool that a class was read with, so a class that no text of the pool
contains is named nowhere.
-/

set_option autoImplicit false

namespace ClassWeave

/-- The classes in a field or method descriptor. Text that is neither names none. -/
def descClasses (text : String) : List String :=
  match FieldType.parse text, MethodDescriptor.parse text with
  | .ok t, _ => t.classes
  | .error _, .ok d => d.classes
  | .error _, .error _ => []

def typeClasses (name : String) : List String :=
  if name.toList.head? = some '[' then descClasses name else [name]

def MemberRef.classes (m : MemberRef) : List String := typeClasses m.owner ++ descClasses m.desc

mutual

def Loadable.classes : Loadable → List String
  | .type name => typeClasses name
  | .methodType desc => descClasses desc
  | .handle h => h.member.classes
  | .dynamic _ desc h args => descClasses desc ++ h.member.classes ++ Loadable.classesOf args
  | _ => []

def Loadable.classesOf : List Loadable → List String
  | [] => []
  | x :: xs => Loadable.classes x ++ Loadable.classesOf xs

end

def Bootstrap.classes (b : Bootstrap) : List String :=
  b.handle.member.classes ++ Loadable.classesOf b.args

def Insn.classes : Insn → List String
  | .typeOp _ name | .newArrays name _ => typeClasses name
  | .field _ m | .method _ m _ => m.classes
  | .callSite _ desc b => descClasses desc ++ b.classes
  | .ldc value => value.classes
  | _ => []

def VType.classes : VType → List String
  | .object name => typeClasses name
  | _ => []

def Frame.classes (f : Frame) : List String := (f.locals ++ f.stack).flatMap VType.classes

def Code.classes (c : Code) : List String :=
  c.insns.flatMap Insn.classes ++ (c.handlers.filterMap Handler.catchType).flatMap typeClasses ++
    c.locals.flatMap (fun v => descClasses v.desc) ++
    (c.frames.getD [] ++ c.hints).flatMap fun f => f.2.classes

def Method.classes (m : Method) : List String :=
  descClasses m.desc ++ m.code.toList.flatMap Code.classes

/-- Every class that the head, the members and the bodies of a class name, besides its own name. -/
def ClassFile.classes (c : ClassFile) : List String :=
  c.superName.toList.flatMap typeClasses ++ c.interfaces.flatMap typeClasses ++
    c.fields.flatMap (fun f => descClasses f.desc) ++ c.methods.flatMap Method.classes

/-! Names in descriptor text -/

def markedNames : Option (List Char) → List Char → List (List Char)
  | _, [] => []
  | none, c :: cs => markedNames (if c = 'L' then some [] else none) cs
  | some name, c :: cs =>
    if c = ';' then name.reverse :: markedNames none cs else markedNames (some (c :: name)) cs

theorem markedNames_cons {c : Char} (plain : c ≠ 'L') (cs : List Char) :
    markedNames none (c :: cs) = markedNames none cs := by
  rw [markedNames, if_neg plain]

theorem markedNames_closed {name : List Char} (closed : ';' ∉ name) (known rest : List Char) :
    markedNames (some known) (name ++ ';' :: rest) =
      (known.reverse ++ name) :: markedNames none rest := by
  induction name generalizing known with
  | nil => rw [List.nil_append, markedNames, if_pos rfl, List.append_nil]
  | cons c name ih =>
    obtain ⟨other, closed⟩ := not_or.1 (mt List.mem_cons.2 closed)
    rw [List.cons_append, markedNames, if_neg (Ne.symm other), ih closed, List.reverse_cons,
      List.append_assoc, List.singleton_append]

theorem markedNames_unclosed {tail : List Char} (unclosed : ';' ∉ tail) (known : List Char) :
    markedNames (some known) tail = [] := by
  induction tail generalizing known with
  | nil => rfl
  | cons c tail ih =>
    obtain ⟨other, unclosed⟩ := not_or.1 (mt List.mem_cons.2 unclosed)
    rw [markedNames, if_neg (Ne.symm other), ih unclosed]

theorem markedNames_marked {name : List Char} (closed : ';' ∉ name) (rest : List Char) :
    markedNames none ('L' :: name ++ ';' :: rest) = name :: markedNames none rest := by
  rw [List.cons_append, markedNames, if_pos rfl, markedNames_closed closed]
  rfl

theorem closed_of_mem_markedNames {name : List Char} {cs : List Char}
    (mem : name ∈ markedNames none cs) : ';' ∉ name := by
  induction cs using Renaming.text_induction with
  | nil => cases mem
  | plain c cs other ih => exact ih (markedNames_cons other cs ▸ mem)
  | marked first rest closed ih =>
    rw [markedNames_marked closed] at mem
    rcases List.mem_cons.1 mem with rfl | mem
    · exact closed
    · exact ih mem
  | unclosed tail unclosed =>
    rw [markedNames, if_pos rfl, markedNames_unclosed unclosed] at mem
    cases mem

theorem infix_of_mem_markedNames {name : List Char} {cs : List Char}
    (mem : name ∈ markedNames none cs) : name <:+: cs := by
  induction cs using Renaming.text_induction with
  | nil => cases mem
  | plain c cs other ih => exact List.infix_cons (ih (markedNames_cons other cs ▸ mem))
  | marked first rest closed ih =>
    rw [markedNames_marked closed] at mem
    rcases List.mem_cons.1 mem with rfl | mem
    · exact ⟨['L'], ';' :: rest, rfl⟩
    · exact (ih mem).trans (((List.suffix_cons ..).trans (List.suffix_append ..)).isInfix)
  | unclosed tail unclosed =>
    rw [markedNames, if_pos rfl, markedNames_unclosed unclosed] at mem
    cases mem

theorem FieldType.markedNames_chars {t : FieldType} (closed : t.Closed) (rest : List Char) :
    markedNames none (t.chars ++ rest) = t.classes.map String.toList ++ markedNames none rest := by
  induction t with
  | object name =>
    rw [chars, List.append_assoc]
    exact markedNames_marked (closed name (List.mem_singleton_self name)) rest
  | array element ih =>
    rw [chars, List.cons_append, markedNames_cons (by decide)]
    exact ih closed
  | _ => exact markedNames_cons (by decide) rest

theorem FieldType.markedNames_flatMap {ts : List FieldType} (closed : ∀ t ∈ ts, t.Closed)
    (rest : List Char) :
    markedNames none (ts.flatMap FieldType.chars ++ rest) =
      (ts.flatMap FieldType.classes).map String.toList ++ markedNames none rest := by
  induction ts with
  | nil => rfl
  | cons t ts ih =>
    obtain ⟨first, closed⟩ := List.forall_mem_cons.1 closed
    rw [List.flatMap_cons, List.append_assoc, FieldType.markedNames_chars first, ih closed,
      List.flatMap_cons, List.map_append, List.append_assoc]

theorem MethodDescriptor.markedNames_chars {d : MethodDescriptor}
    (closed : ∀ t ∈ d.types, t.Closed) :
    markedNames none d.chars = d.classes.map String.toList := by
  obtain ⟨params, result⟩ := d
  obtain ⟨inParams, inResult⟩ := List.forall_mem_append.1 closed
  rw [chars, List.cons_append, markedNames_cons (by decide), FieldType.markedNames_flatMap inParams,
    markedNames_cons (by decide), classes, types, List.flatMap_append, List.map_append]
  congr 1
  cases result with
  | none => rfl
  | some t =>
    have text := FieldType.markedNames_flatMap inResult []
    rw [List.append_nil] at text
    simpa [markedNames] using text

theorem mem_markedNames_of_descClasses {name text : String} (mem : name ∈ descClasses text) :
    name.toList ∈ markedNames none text.toList := by
  unfold descClasses at mem
  split at mem
  · rename_i t parsed
    obtain ⟨whole, named⟩ := FieldType.eq_chars_of_parse parsed
    rw [whole, ← List.append_nil t.chars, FieldType.markedNames_chars named.closed, markedNames,
      List.append_nil]
    exact List.mem_map_of_mem mem
  · rename_i d _ parsed
    obtain ⟨whole, named⟩ := MethodDescriptor.eq_chars_of_parse parsed
    rw [whole, MethodDescriptor.markedNames_chars fun t mem => (named t mem).closed]
    exact List.mem_map_of_mem mem
  · cases mem

theorem infix_of_mem_descClasses {name text : String} (mem : name ∈ descClasses text) :
    name.toList <:+: text.toList :=
  infix_of_mem_markedNames (mem_markedNames_of_descClasses mem)

theorem infix_of_mem_typeClasses {name type : String} (mem : name ∈ typeClasses type) :
    name.toList <:+: type.toList := by
  unfold typeClasses at mem
  split at mem
  · exact infix_of_mem_descClasses mem
  · rw [List.mem_singleton.1 mem]

/-! Texts without a name -/

theorem Pool.occursIn_iff {needle cs : List Char} :
    Pool.occursIn needle cs = true ↔ needle <:+: cs := by
  induction cs with
  | nil => rw [Pool.occursIn, List.isEmpty_iff, List.infix_nil]
  | cons c cs ih =>
    rw [Pool.occursIn, Bool.or_eq_true, List.isPrefixOf_iff_prefix, ih, List.infix_cons_iff]

def Limits.without (gone : String) : Limits :=
  ⟨fun text => ¬ gone.toList <:+: text.toList, fun _ => True⟩

section

variable {gone : String}

theorem notMem_typeClasses {name : String} (h : (Limits.without gone).text name) :
    gone ∉ typeClasses name :=
  fun mem => h (infix_of_mem_typeClasses mem)

theorem notMem_descClasses {text : String} (h : (Limits.without gone).text text) :
    gone ∉ descClasses text :=
  fun mem => h (infix_of_mem_descClasses mem)

theorem MemberRef.Within.notMem_classes {m : MemberRef} (h : m.Within (.without gone)) :
    gone ∉ m.classes := by
  obtain ⟨owner, _, desc⟩ := h
  exact List.not_mem_append (notMem_typeClasses owner) (notMem_descClasses desc)

mutual

theorem Loadable.notMem_classes {v : Loadable} (h : v.Within (.without gone)) :
    gone ∉ v.classes := by
  cases v with
  | type name =>
    rw [Loadable.Within] at h
    rw [Loadable.classes]
    exact notMem_typeClasses h
  | methodType desc =>
    rw [Loadable.Within] at h
    rw [Loadable.classes]
    exact notMem_descClasses h
  | handle handle =>
    rw [Loadable.Within] at h
    rw [Loadable.classes]
    exact h.notMem_classes
  | dynamic name desc handle args =>
    rw [Loadable.Within] at h
    obtain ⟨_, desc, member, _, args⟩ := h
    rw [Loadable.classes]
    exact List.not_mem_append
      (List.not_mem_append (notMem_descClasses desc) member.notMem_classes)
      (notMem_classesOf args)
  | _ => simp [Loadable.classes]

theorem Loadable.notMem_classesOf {vs : List Loadable}
    (h : Loadable.AllWithin (.without gone) vs) : gone ∉ Loadable.classesOf vs := by
  cases vs with
  | nil => simp [Loadable.classesOf]
  | cons v vs =>
    rw [Loadable.AllWithin] at h
    rw [Loadable.classesOf]
    exact List.not_mem_append (notMem_classes h.1) (notMem_classesOf h.2)

end

theorem Insn.Within.notMem_classes {i : Insn} (h : i.Within (.without gone)) :
    gone ∉ i.classes := by
  cases i with
  | typeOp op name => exact notMem_typeClasses h
  | newArrays name dims => exact notMem_typeClasses h
  | field op m => exact MemberRef.Within.notMem_classes h
  | method op m ofInterface => exact MemberRef.Within.notMem_classes h
  | callSite name desc b =>
    obtain ⟨_, desc, bootstrap⟩ := h
    refine List.not_mem_append (notMem_descClasses desc) ?_
    exact List.not_mem_append bootstrap.handle.notMem_classes
      (Loadable.notMem_classesOf (Loadable.allWithin_iff.2 bootstrap.args))
  | ldc value => exact Loadable.notMem_classes h
  | _ => exact List.not_mem_nil

theorem notMem_flatMap {α : Type} {l : List α} {f : α → List String}
    (h : ∀ a ∈ l, gone ∉ f a) : gone ∉ l.flatMap f := by
  intro mem
  obtain ⟨a, ha, mem⟩ := List.mem_flatMap.1 mem
  exact h a ha mem

theorem Frame.Within.notMem_classes {f : Frame} (h : f.Within (.without gone)) :
    gone ∉ f.classes := by
  refine notMem_flatMap fun t ht => ?_
  have within : t.Within (.without gone) :=
    (List.mem_append.1 ht).elim (h.locals t) (h.stack t)
  cases t with
  | object name => exact notMem_typeClasses within
  | _ => exact List.not_mem_nil

theorem Code.Within.notMem_classes {c : Code} (h : c.Within (.without gone))
    (settled : c.hints = []) : gone ∉ c.classes := by
  rw [Code.classes, settled, List.append_nil]
  refine List.not_mem_append (List.not_mem_append (List.not_mem_append ?_ ?_) ?_) ?_
  · exact notMem_flatMap fun i hi => (h.insns i hi).notMem_classes
  · refine notMem_flatMap fun name hname => ?_
    obtain ⟨handler, hh, caught⟩ := List.mem_filterMap.1 hname
    exact notMem_typeClasses (h.handlers handler hh name caught)
  · exact notMem_flatMap fun v hv => notMem_descClasses (h.locals v hv).2
  · exact notMem_flatMap fun f hf => (h.frames f hf).notMem_classes

theorem ClassFile.notMem_classes_of_parse {bytes : Bytes} {c : ClassFile}
    (parsed : parse bytes = .ok c) (unknown : ¬ c.pool.hasTextWith gone) : gone ∉ c.classes := by
  obtain ⟨t, _, _, all⟩ := sane_parse parsed
  have texts : ∀ text, some (.utf8 text) ∈ c.pool.toList → (Limits.without gone).text text := by
    intro text mem found
    apply unknown
    rw [Pool.hasTextWith, List.any_eq_true]
    exact ⟨_, mem, Pool.occursIn_iff.2 found⟩
  have sane : c.Sane (.without gone) t := all _ texts fun _ _ => trivial
  have entry : ∀ m ∈ c.methods, EntrySane (.without gone) (c.bodyContext t m) := by
    intro m mem
    refine entrySane_of_params sane.name fun d parsed u hu inside => ?_
    have param := u.infix_internalName.trans (MethodDescriptor.infix_param parsed hu)
    exact (sane.methods.2 m mem).desc (inside.trans param)
  refine List.not_mem_append (List.not_mem_append (List.not_mem_append ?_ ?_) ?_) ?_
  · exact notMem_flatMap fun name hname =>
      notMem_typeClasses (sane.superName name (Option.mem_toList.1 hname))
  · exact notMem_flatMap fun name hname => notMem_typeClasses (sane.interfaces.2 name hname)
  · exact notMem_flatMap fun f hf => notMem_descClasses (sane.fields.2 f hf).within.desc
  · refine notMem_flatMap fun m hm => ?_
    have known := sane.methods.2 m hm
    refine List.not_mem_append (notMem_descClasses known.desc) (notMem_flatMap fun code found => ?_)
    obtain ⟨b, hb, rfl⟩ := known.body (entry m hm) code (Option.mem_toList.1 found)
    exact hb.code_within.notMem_classes rfl

end

end ClassWeave
