import ClassWeave.ClassFile.Decode
import ClassWeave.Edit

/-!
# Copied methods

Methods are copied from a compiled class, or from another class of the batch under a new name.
Lambda bodies come along: they are synthetic methods of the source that a copied body reaches
through method handles.
-/

set_option autoImplicit false

namespace ClassWeave.Edit

def lambdaBodies (source : ClassFile) (m : Method) : List (String × String) :=
  match m.code with
  | none => []
  | some code => (code.insns.flatMap Insn.handles).filterMap fun h =>
    if h.member.owner == source.name && !h.isField then
      match source.method? h.member.name h.member.desc with
      | some m => if m.access.has Access.syntheticBit then some (m.name, m.desc) else none
      | none => none
    else none

def addUnseen (known : List (String × String)) : List (String × String) → List (String × String)
  | [] => known
  | s :: rest => addUnseen (if known.contains s then known else known ++ [s]) rest

/-- Copies the methods in `pending` from position `next` on; what they reach joins the end of the
list. Each method of the source joins once at most, which bounds the steps. -/
def copyPending (source : ClassFile) (r : Renaming) : Nat → Nat → List (String × String) → Bool →
    Editing Bool
  | 0, _, _, changed => pure changed
  | fuel + 1, next, pending, changed =>
    match pending[next]? with
    | none => pure changed
    | some (name, desc) => do
      match source.method? name desc with
      | none => throw (.missingMethod ⟨source.name, name, desc⟩)
      | some m =>
        let pending := addUnseen pending (lambdaBodies source m)
        let c ← get
        if (c.method? name (r.desc desc)).isSome then
          copyPending source r fuel (next + 1) pending changed
        else
          let added ← Editing.addMethod (r.rehome m)
          copyPending source r fuel (next + 1) pending (changed || added)

def applyMethods (source : ClassFile) (methods : List (String × String)) (r : Renaming) :
    Editing Bool :=
  copyPending source r (methods.length + source.methods.length + 1) 0 methods false

def copySource (ctx : EditContext) (c : ClassFile) (owner : String) :
    Except EditError ClassFile :=
  if owner = c.name then .ok c
  else match ctx.batch.get? owner with
    | some bytes => orBadFormat (ClassFile.parse bytes)
    | none => .error (.missingSource owner)

/-- Copies a method under a new name, public; calls of itself become calls of the copy. -/
def applyCopy (ctx : EditContext) (source : MemberRef) (name : String) : Editing Bool := do
  let c ← get
  if (c.method? name source.desc).isSome then return false
  let owner ← Editing.ofExcept (copySource ctx c source.owner)
  match owner.method? source.name source.desc with
  | none => throw (.missingMethod source)
  | some m =>
    let r := Renaming.empty.redirectMethod source c.name name
    let copy := r.rehome m
    let access := (copy.access.remove (Access.privateBit ||| Access.protectedBit)).add
      Access.publicBit
    Editing.addMethod { copy with name := name, access := access }

end ClassWeave.Edit
