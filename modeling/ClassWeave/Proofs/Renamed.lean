import Mathlib.Tactic.Common
import ClassWeave.Edit.EntryPoint
import ClassWeave.Proofs.References

/-!
# Renamed references

A renaming that no new name of a class slips through clears the class from everything that it is
applied to. Calls and method handles are renamed one by one and stay in their order.
-/

set_option autoImplicit false

namespace ClassWeave

def Insn.call? : Insn → Option MemberRef
  | .method _ m _ => some m
  | _ => none

namespace ClassFile

def bodies (c : ClassFile) : List Code := c.methods.filterMap Method.code

/-- The methods that instructions call, in the order of the instructions. -/
def calls (c : ClassFile) : List MemberRef :=
  c.bodies.flatMap fun code => code.insns.filterMap Insn.call?

/-- The methods that handles point at, those in bootstrap arguments included. -/
def handled (c : ClassFile) : List MemberRef :=
  ((c.bodies.flatMap fun code => code.insns.flatMap Insn.handles).filter
    fun h => !h.isField).map Handle.member

end ClassFile

/-! What a call or a handle names, its class names. -/

mutual

theorem Loadable.mem_classes_of_handles {v : Loadable} {h : Handle} {name : String}
    (mem : h ∈ v.handles) (named : name ∈ h.member.classes) : name ∈ v.classes := by
  cases v with
  | handle h' =>
    rw [Loadable.handles] at mem
    rw [Loadable.classes, ← List.mem_singleton.1 mem]
    exact named
  | dynamic text desc h' args =>
    rw [Loadable.handles] at mem
    rw [Loadable.classes]
    rcases List.mem_cons.1 mem with rfl | mem
    · exact List.mem_append_left _ (List.mem_append_right _ named)
    · exact List.mem_append_right _ (mem_classesOf_of_handles mem named)
  | _ => simp [Loadable.handles] at mem

theorem Loadable.mem_classesOf_of_handles {vs : List Loadable} {h : Handle} {name : String}
    (mem : h ∈ Loadable.handlesOf vs) (named : name ∈ h.member.classes) :
    name ∈ Loadable.classesOf vs := by
  cases vs with
  | nil => simp [Loadable.handlesOf] at mem
  | cons v vs =>
    rw [Loadable.handlesOf] at mem
    rw [Loadable.classesOf]
    rcases List.mem_append.1 mem with mem | mem
    · exact List.mem_append_left _ (mem_classes_of_handles mem named)
    · exact List.mem_append_right _ (mem_classesOf_of_handles mem named)

end

theorem Insn.mem_classes_of_handles {i : Insn} {h : Handle} {name : String}
    (mem : h ∈ i.handles) (named : name ∈ h.member.classes) : name ∈ i.classes := by
  cases i with
  | callSite text desc b =>
    apply List.mem_append_right
    rcases List.mem_cons.1 mem with rfl | mem
    · exact List.mem_append_left _ named
    · exact List.mem_append_right _ (Loadable.mem_classesOf_of_handles mem named)
  | ldc value => exact Loadable.mem_classes_of_handles mem named
  | _ => cases mem

namespace ClassFile

variable {c : ClassFile}

theorem mem_classes_of_insn {code : Code} {i : Insn} {name : String} (body : code ∈ c.bodies)
    (mem : i ∈ code.insns) (named : name ∈ i.classes) : name ∈ c.classes := by
  obtain ⟨m, hm, same⟩ := List.mem_filterMap.1 body
  have inCode : name ∈ code.classes := by
    simp only [Code.classes, List.append_assoc]
    exact List.mem_append_left _ (List.mem_flatMap.2 ⟨i, mem, named⟩)
  apply List.mem_append_right
  refine List.mem_flatMap.2 ⟨m, hm, List.mem_append_right _ ?_⟩
  exact List.mem_flatMap.2 ⟨code, Option.mem_toList.2 same, inCode⟩

theorem mem_classes_of_calls {m : MemberRef} {name : String} (mem : m ∈ c.calls)
    (named : name ∈ m.classes) : name ∈ c.classes := by
  obtain ⟨code, body, mem⟩ := List.mem_flatMap.1 mem
  obtain ⟨i, hi, called⟩ := List.mem_filterMap.1 mem
  apply mem_classes_of_insn body hi
  cases i with
  | method op m' ofInterface =>
    cases called
    exact named
  | _ => cases called

theorem mem_classes_of_handled {m : MemberRef} {name : String} (mem : m ∈ c.handled)
    (named : name ∈ m.classes) : name ∈ c.classes := by
  obtain ⟨h, inside, rfl⟩ := List.mem_map.1 mem
  obtain ⟨code, body, inside⟩ := List.mem_flatMap.1 (List.mem_filter.1 inside).1
  obtain ⟨i, hi, inside⟩ := List.mem_flatMap.1 inside
  exact mem_classes_of_insn body hi (Insn.mem_classes_of_handles inside named)

end ClassFile

namespace Renaming

variable {r : Renaming} {gone : String}

theorem markedNames_descChars (closed : ∀ name, ';' ∉ name → ';' ∉ r.plainName name)
    (cs : List Char) :
    markedNames none (r.descChars cs) = (markedNames none cs).map r.innerName := by
  induction cs using text_induction with
  | nil => rw [descChars_nil, markedNames, List.map_nil]
  | plain c cs other ih =>
    rw [descChars_cons r other, markedNames_cons other, markedNames_cons other, ih]
  | marked name rest inside ih =>
    have renamed : ';' ∉ r.innerName name := by
      unfold innerName
      split
      · rwa [descChars_of_unclosed r inside]
      · exact closed name inside
    rw [descChars_marked r inside, markedNames_marked renamed, markedNames_marked inside, ih,
      List.map_cons]
  | unclosed tail unclosed =>
    rw [descChars_open r unclosed, markedNames, if_pos rfl, markedNames_unclosed unclosed,
      List.map_nil]

structure Clears (r : Renaming) (gone : String) : Prop where
  type : ∀ name, gone ∉ typeClasses (r.className name)
  desc : ∀ text, gone ∉ descClasses (r.desc text)
  field : ∀ m, gone ∉ (r.field m).classes
  method : ∀ m, gone ∉ (r.method m).classes

namespace Clears

theorem handle (clear : r.Clears gone) (h : Handle) : gone ∉ (r.handle h).member.classes := by
  unfold Renaming.handle
  dsimp only
  split
  · exact clear.field h.member
  · exact clear.method h.member

mutual

theorem loadable (clear : r.Clears gone) (v : Loadable) : gone ∉ (r.loadable v).classes := by
  cases v with
  | type name =>
    rw [Renaming.loadable, Loadable.classes]
    exact clear.type name
  | methodType desc =>
    rw [Renaming.loadable, Loadable.classes]
    exact clear.desc desc
  | handle h =>
    rw [Renaming.loadable, Loadable.classes]
    exact clear.handle h
  | dynamic name desc h args =>
    rw [Renaming.loadable, Loadable.classes]
    exact List.not_mem_append (List.not_mem_append (clear.desc desc) (clear.handle h))
      (clear.loadables args)
  | _ => simp [Renaming.loadable, Loadable.classes]

theorem loadables (clear : r.Clears gone) (vs : List Loadable) :
    gone ∉ Loadable.classesOf (r.loadables vs) := by
  cases vs with
  | nil => simp [Renaming.loadables, Loadable.classesOf]
  | cons v vs =>
    rw [Renaming.loadables, Loadable.classesOf]
    exact List.not_mem_append (clear.loadable v) (clear.loadables vs)

end

theorem insn (clear : r.Clears gone) (i : Insn) : gone ∉ (r.insn i).classes := by
  cases i with
  | typeOp op name => exact clear.type name
  | newArrays name dims => exact clear.type name
  | field op m => exact clear.field m
  | method op m ofInterface => exact clear.method m
  | callSite name desc b =>
    exact List.not_mem_append (clear.desc desc)
      (List.not_mem_append (clear.handle b.handle) (clear.loadables b.args))
  | ldc value => exact clear.loadable value
  | _ => exact List.not_mem_nil

theorem frame (clear : r.Clears gone) (f : LabelledFrame) : gone ∉ (r.frame f).2.classes := by
  refine notMem_flatMap fun t ht => ?_
  obtain ⟨u, rfl⟩ : ∃ u, t = r.vtype u := by
    rcases List.mem_append.1 ht with ht | ht <;>
    · obtain ⟨u, _, same⟩ := List.mem_map.1 ht
      exact ⟨u, same.symm⟩
  cases u with
  | object name => exact clear.type name
  | _ => exact List.not_mem_nil

theorem code (clear : r.Clears gone) (c : Code) : gone ∉ (r.code c).classes := by
  refine List.not_mem_append (List.not_mem_append (List.not_mem_append ?_ ?_) ?_) ?_
  · refine notMem_flatMap fun i hi => ?_
    obtain ⟨i, _, rfl⟩ := List.mem_map.1 hi
    exact clear.insn i
  · refine notMem_flatMap fun name hname => ?_
    obtain ⟨h, hh, caught⟩ := List.mem_filterMap.1 hname
    obtain ⟨h, _, rfl⟩ := List.mem_map.1 hh
    obtain ⟨name, _, rfl⟩ := Option.map_eq_some_iff.1 caught
    exact clear.type name
  · refine notMem_flatMap fun v hv => ?_
    obtain ⟨v, _, rfl⟩ := List.mem_map.1 hv
    exact clear.desc v.desc
  · refine notMem_flatMap fun f hf => ?_
    have renamed : (r.code c).frames.getD [] = (c.frames.getD []).map r.frame := by
      show (c.frames.map (·.map r.frame)).getD [] = _
      cases c.frames <;> rfl
    rw [renamed] at hf
    rcases List.mem_append.1 hf with hf | hf <;>
    · obtain ⟨f, _, rfl⟩ := List.mem_map.1 hf
      exact clear.frame f

end Clears

theorem Clears.renameReferences (clear : r.Clears gone) (c : ClassFile) :
    gone ∉ (Edit.renameReferences r c).classes := by
  refine List.not_mem_append (List.not_mem_append (List.not_mem_append ?_ ?_) ?_) ?_
  · refine notMem_flatMap fun name hname => ?_
    obtain ⟨name, _, rfl⟩ := Option.map_eq_some_iff.1 (Option.mem_toList.1 hname)
    exact clear.type name
  · refine notMem_flatMap fun name hname => ?_
    obtain ⟨name, _, rfl⟩ := List.mem_map.1 hname
    exact clear.type name
  · refine notMem_flatMap fun f hf => ?_
    obtain ⟨f, _, rfl⟩ := List.mem_map.1 hf
    exact clear.desc f.desc
  · refine notMem_flatMap fun m hm => ?_
    obtain ⟨m, _, rfl⟩ := List.mem_map.1 hm
    refine List.not_mem_append (clear.desc m.desc) (notMem_flatMap fun code found => ?_)
    obtain ⟨code, _, rfl⟩ := Option.map_eq_some_iff.1 (Option.mem_toList.1 found)
    exact clear.code code

/-! Calls and handles are renamed in their places. -/

variable (r)

mutual

theorem handles_loadable (v : Loadable) :
    (r.loadable v).handles = v.handles.map r.handle := by
  cases v with
  | dynamic name desc h args =>
    rw [loadable, Loadable.handles, Loadable.handles, List.map_cons, handles_loadables args]
  | _ => simp [loadable, Loadable.handles]

theorem handles_loadables (vs : List Loadable) :
    Loadable.handlesOf (r.loadables vs) = (Loadable.handlesOf vs).map r.handle := by
  cases vs with
  | nil => simp [loadables, Loadable.handlesOf]
  | cons v vs =>
    rw [loadables, Loadable.handlesOf, Loadable.handlesOf, List.map_append, handles_loadable v,
      handles_loadables vs]

end

theorem handles_insn (i : Insn) : (r.insn i).handles = i.handles.map r.handle := by
  cases i with
  | callSite name desc b =>
    exact congrArg (r.handle b.handle :: ·) (handles_loadables r b.args)
  | ldc value => exact handles_loadable r value
  | _ => rfl

theorem call?_insn (i : Insn) : (r.insn i).call? = i.call?.map r.method := by
  cases i <;> rfl

end Renaming

namespace Edit

variable (r : Renaming) (c : ClassFile)

theorem bodies_renameReferences : (renameReferences r c).bodies = c.bodies.map r.code := by
  rw [ClassFile.bodies, ClassFile.bodies, renameReferences, List.filterMap_map,
    List.map_filterMap]
  rfl

theorem calls_renameReferences : (renameReferences r c).calls = c.calls.map r.method := by
  rw [ClassFile.calls, bodies_renameReferences, List.flatMap_map, ClassFile.calls,
    List.map_flatMap]
  congr 1
  funext code
  rw [Renaming.code, List.filterMap_map, List.map_filterMap]
  congr 1
  funext i
  exact Renaming.call?_insn r i

theorem handled_renameReferences : (renameReferences r c).handled = c.handled.map r.method := by
  have handles : ((renameReferences r c).bodies.flatMap fun code =>
      code.insns.flatMap Insn.handles) =
        (c.bodies.flatMap fun code => code.insns.flatMap Insn.handles).map r.handle := by
    rw [bodies_renameReferences, List.flatMap_map, List.map_flatMap]
    congr 1
    funext code
    rw [Renaming.code, List.flatMap_map, List.map_flatMap]
    congr 1
    funext i
    exact Renaming.handles_insn r i
  rw [ClassFile.handled, handles, List.filter_map, List.map_map, ClassFile.handled, List.map_map]
  apply List.map_congr_left
  intro h mem
  have points : (!h.isField) = true := (List.mem_filter.1 mem).2
  have points : h.isField = false := by simpa using points
  simp [Renaming.handle, points]

end Edit

end ClassWeave
