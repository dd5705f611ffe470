import Mathlib.Data.List.Nodup
import ClassWeave.Proofs.Edited
import ClassWeave.Proofs.Renaming

/-!
# Members that can be told apart

A class with two methods of one signature, two fields of one name or the same interface twice
cannot be loaded. What edits add is checked against what is there. The entry point renames classes
in descriptors that are there already, and unique members may become the same.
-/

set_option autoImplicit false

namespace ClassWeave

def Method.signature (m : Method) : String × String := (m.name, m.desc)

namespace ClassFile

/-- No two members have the same signature, and no interface is named twice. -/
structure Distinct (c : ClassFile) : Prop where
  interfaces : c.interfaces.Nodup
  fields : (c.fields.map Field.name).Nodup
  methods : (c.methods.map Method.signature).Nodup

instance (c : ClassFile) : Decidable c.Distinct :=
  decidable_of_iff
    (c.interfaces.Nodup ∧ (c.fields.map Field.name).Nodup ∧ (c.methods.map Method.signature).Nodup)
    ⟨fun ⟨interfaces, fields, methods⟩ => ⟨interfaces, fields, methods⟩,
      fun ⟨interfaces, fields, methods⟩ => ⟨interfaces, fields, methods⟩⟩

namespace Distinct

variable {c c' : ClassFile}

theorem addInterface (distinct : c.Distinct) (name : String) :
    (c.addInterface name).2.Distinct := by
  unfold ClassFile.addInterface
  split
  · exact distinct
  · rename_i fresh
    refine { distinct with interfaces := ?_ }
    rw [List.nodup_append_comm, List.singleton_append, List.nodup_cons]
    exact ⟨fun mem => fresh (List.contains_iff_mem.2 mem), distinct.interfaces⟩

theorem addField (distinct : c.Distinct) {f : Field} {added : Bool}
    (run : c.addField f = .ok (added, c')) : c'.Distinct := by
  unfold ClassFile.addField at run
  split at run
  · split at run
    · cases run
      exact distinct
    · cases run
  · rename_i free
    cases run
    refine { distinct with fields := ?_ }
    have fresh : f.name ∉ c.fields.map Field.name := by
      rw [List.mem_map]
      rintro ⟨g, mem, same⟩
      simpa [same] using List.find?_eq_none.1 free g mem
    rw [List.map_append, List.nodup_append_comm]
    exact List.nodup_cons.2 ⟨fresh, distinct.fields⟩

theorem addMethod (distinct : c.Distinct) (m : Method) : (c.addMethod m).2.Distinct := by
  unfold ClassFile.addMethod
  split
  · exact distinct
  · rename_i free
    refine { distinct with methods := ?_ }
    have fresh : m.signature ∉ c.methods.map Method.signature := by
      rw [List.mem_map]
      rintro ⟨n, mem, same⟩
      simp only [Method.signature, Prod.mk.injEq] at same
      apply free
      rw [method?, List.find?_isSome]
      exact ⟨n, mem, by simp [Method.hasSignature, same]⟩
    rw [List.map_append, List.nodup_append_comm]
    exact List.nodup_cons.2 ⟨fresh, distinct.methods⟩

theorem of_bodies (distinct : c.Distinct) {methods : List Method}
    (same : methods.map Method.head = c.methods.map Method.head) :
    ({ c with methods := methods } : ClassFile).Distinct := by
  have signatures : methods.map Method.signature = c.methods.map Method.signature := by
    have heads := congrArg (List.map fun head => (head.1, head.2.1)) same
    rwa [List.map_map, List.map_map] at heads
  refine { distinct with methods := ?_ }
  rw [signatures]
  exact distinct.methods

end Distinct

theorem editFrame_distinct : EditFrame fun c c' => c.Distinct → c'.Distinct where
  refl _ distinct := distinct
  trans first second distinct := second (first distinct)
  addInterface _ name distinct := distinct.addInterface name
  addField run distinct := distinct.addField run
  addMethod _ m _ distinct := distinct.addMethod m
  bodies same distinct := distinct.of_bodies same

end ClassFile

/-- The renaming makes no two interfaces the same, and no two methods of one name. -/
structure Renaming.KeepsApart (r : Renaming) (c : ClassFile) : Prop where
  interfaces : ∀ i ∈ c.interfaces, ∀ j ∈ c.interfaces, r.className i = r.className j → i = j
  methods : ∀ m ∈ c.methods, ∀ n ∈ c.methods, m.name = n.name → r.desc m.desc = r.desc n.desc →
    m.desc = n.desc

theorem Renaming.KeepsApart.congr {r r' : Renaming} {c : ClassFile} (apart : r.KeepsApart c)
    (same : r.classes = r'.classes) : r'.KeepsApart c where
  interfaces i hi j hj := by
    rw [← className_congr same, ← className_congr same]
    exact apart.interfaces i hi j hj
  methods m hm n hn := by
    rw [← desc_congr same, ← desc_congr same]
    exact apart.methods m hm n hn

namespace Edit

/-- Only the entry point can make members the same. -/
def KeepsApart (e : Edit) (c : ClassFile) : Prop :=
  match e with
  | .appletToPanel legacy component _ => (Renaming.empty.renameClass legacy component).KeepsApart c
  | _ => True

theorem redirectOwners_eq (calls : List (String × String)) (engine : String) (r : Renaming) :
    calls.foldl (fun r call => r.redirectOwner call.1 call.2 engine) r =
      { r with owners := (calls.reverse.map fun call => (call, engine)) ++ r.owners } := by
  induction calls generalizing r with
  | nil => rfl
  | cons call calls ih =>
    rw [List.foldl_cons, ih, List.reverse_cons, List.map_append, List.append_assoc]
    rfl

theorem classes_entryRenaming (h : Hierarchy) (c : ClassFile) (legacy component engine : String) :
    (entryRenaming h c legacy component engine).classes =
      (Renaming.empty.renameClass legacy component).classes := by
  rw [entryRenaming, redirectOwners_eq]

theorem distinct_renameReferences (r : Renaming) {c : ClassFile} (distinct : c.Distinct) :
    (renameReferences r c).Distinct ↔ r.KeepsApart c := by
  have signatures : (renameReferences r c).methods.map Method.signature =
      (c.methods.map Method.signature).map fun s => (s.1, r.desc s.2) := by
    rw [List.map_map, renameReferences, List.map_map]
    rfl
  have names : (renameReferences r c).fields.map Field.name = c.fields.map Field.name := by
    rw [renameReferences, List.map_map]
    rfl
  constructor
  · intro apart
    have interfaces := List.inj_on_of_nodup_map apart.interfaces
    have methods := apart.methods
    rw [signatures] at methods
    refine ⟨fun i hi j hj => interfaces hi hj, fun m hm n hn name desc => ?_⟩
    have same := List.inj_on_of_nodup_map methods (List.mem_map_of_mem hm) (List.mem_map_of_mem hn)
      (Prod.ext name desc)
    exact congrArg Prod.snd same
  · intro apart
    refine ⟨?_, names ▸ distinct.fields, ?_⟩
    · exact distinct.interfaces.map_on apart.interfaces
    · rw [signatures]
      apply distinct.methods.map_on
      intro s hs s' hs' same
      obtain ⟨m, hm, rfl⟩ := List.mem_map.1 hs
      obtain ⟨n, hn, rfl⟩ := List.mem_map.1 hs'
      obtain ⟨name, desc⟩ := Prod.mk.inj same
      exact Prod.ext name (apart.methods m hm n hn name desc)

/-- An edit keeps the members of a class apart, but for an entry point that makes two of them the
same. -/
theorem distinct_apply {ctx : EditContext} {e : Edit} {c c' : ClassFile} {now : Bool}
    (distinct : c.Distinct) (run : (e.apply ctx).run c = (.ok now, c')) :
    (e.KeepsApart c → c'.Distinct) ∧ (now = true → c'.Distinct → e.KeepsApart c) := by
  constructor
  · intro apart
    have kept : c.Distinct → ((e.apply ctx).run c).2.Distinct := by
      apply keeping_apply ClassFile.editFrame_distinct ctx e
      rintro legacy component engine rfl _
      apply (distinct_renameReferences _ distinct).2
      exact apart.congr (classes_entryRenaming ctx.hierarchy c legacy component engine).symm
    rw [run] at kept
    exact kept distinct
  · rintro rfl apart
    cases e with
    | appletToPanel legacy component engine =>
      replace run := (applyEntryPoint_run ctx legacy component engine c).symm.trans run
      split at run
      · cases run
      · split at run
        · cases run
        · obtain rfl := (Prod.mk.inj run).2
          have renamed := (distinct_renameReferences _ distinct).1 apart
          exact renamed.congr (classes_entryRenaming ctx.hierarchy c legacy component engine)
    | _ => trivial

/-- An applet with one method `f` for each of the classes. -/
def overloadedApplet (params : List String) : ClassFile :=
  { ClassFile.new "a" (some "java/applet/Applet") with
    methods := params.map fun param => ⟨⟨0x401⟩, "f", "(L" ++ param ++ ";)V", none, []⟩ }

def panelEdit : Edit := .appletToPanel "java/applet/Applet" "java/awt/Panel" "engine"

def noContext : EditContext := ⟨Batch.ofList [], Hierarchy.empty⟩

theorem distinct_overloadedApplet : ∃ c',
    (panelEdit.apply noContext).run (overloadedApplet ["java/applet/Applet", "java/lang/String"]) =
      (.ok true, c') ∧
    c'.methods.map Method.desc = ["(Ljava/awt/Panel;)V", "(Ljava/lang/String;)V"] ∧
    c'.Distinct := by
  have run : (panelEdit.apply noContext).run
      (overloadedApplet ["java/applet/Applet", "java/lang/String"]) = (.ok true,
        ((panelEdit.apply noContext).run
          (overloadedApplet ["java/applet/Applet", "java/lang/String"])).2) :=
    Prod.ext (by decide +kernel) rfl
  have apart : panelEdit.KeepsApart
      (overloadedApplet ["java/applet/Applet", "java/lang/String"]) :=
    ⟨by decide +kernel, by decide +kernel⟩
  exact ⟨_, run, by decide +kernel, (distinct_apply (by decide +kernel) run).1 apart⟩

/-- Two methods that differ in the legacy class and its replacement end with one signature. -/
theorem indistinct_overloadedApplet :
    ¬ ∀ (ctx : EditContext) (e : Edit) (c c' : ClassFile) (now : Bool), c.Distinct →
      (e.apply ctx).run c = (.ok now, c') → c'.Distinct := by
  intro always
  have run : (panelEdit.apply noContext).run
      (overloadedApplet ["java/applet/Applet", "java/awt/Panel"]) = (.ok true,
        ((panelEdit.apply noContext).run
          (overloadedApplet ["java/applet/Applet", "java/awt/Panel"])).2) :=
    Prod.ext (by decide +kernel) rfl
  have distinct := always _ _ _ _ _ (by decide +kernel) run
  exact absurd distinct (by decide +kernel)

end Edit

end ClassWeave
