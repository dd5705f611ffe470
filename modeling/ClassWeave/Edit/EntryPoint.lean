import ClassWeave.Edit

/-!
# The entry point of an applet

An applet becomes a plain component: references to the legacy class become references to the
component class, and calls of members that only an applet has go to the engine class.
-/

set_option autoImplicit false

namespace ClassWeave.Edit

def appletMembers : List String := [
  "getAppletContext", "getAppletInfo", "getAudioClip", "getCodeBase", "getDocumentBase",
  "getImage", "getParameter", "getParameterInfo", "isActive", "play", "setStub", "showStatus"]

def appletCall? (insn : Insn) : Option (String × String) :=
  match insn with
  | .method _ m _ => if appletMembers.contains m.name then some (m.owner, m.name) else none
  | _ => none

def entryRenaming (h : Hierarchy) (c : ClassFile) (legacy component engine : String) : Renaming :=
  let calls := (c.methods.filterMap Method.code).flatMap fun code =>
    code.insns.filterMap appletCall?
  let redirected := calls.filter fun call => call.1 == legacy || h.isAssignable legacy call.1
  redirected.foldl (fun r call => r.redirectOwner call.1 call.2 engine)
    (Renaming.empty.renameClass legacy component)

def renameReferences (r : Renaming) (c : ClassFile) : ClassFile :=
  { c with
    superName := c.superName.map r.className
    interfaces := c.interfaces.map r.className
    fields := c.fields.map fun f => { f with desc := r.desc f.desc }
    methods := c.methods.map fun m => { m with desc := r.desc m.desc, code := m.code.map r.code } }

def applyEntryPoint (ctx : EditContext) (legacy component engine : String) : Editing Bool := do
  let c ← get
  if c.superName ≠ some legacy ∧ ¬ c.pool.hasTextWith legacy then return false
  let adapted := renameReferences (entryRenaming ctx.hierarchy c legacy component engine) c
  if adapted = c then return false
  set adapted
  return true

end ClassWeave.Edit
