import ClassWeave.Edit.Callbacks
import ClassWeave.Edit.Copies
import ClassWeave.Edit.EntryPoint

/-!
# Applying edits

`Edit.apply` says whether the class changed. A class that an edit has changed is left alone by the
same edit.
-/

set_option autoImplicit false

namespace ClassWeave.Edit

def apply (ctx : EditContext) (e : Edit) : Editing Bool :=
  match e with
  | .addInterface name => fun c =>
    let (added, c) := c.addInterface name
    (.ok added, c)
  | .addField access name desc => do
    let (added, c) ← Editing.ofExcept ((← get).addField ⟨access, name, desc, []⟩)
    set c
    return added
  | .addGetter name desc field isStatic factor =>
    addSynthesized "getter" name desc fun _ context => getterBody context desc field isStatic factor
  | .addSetter name desc field isStatic factor =>
    addSynthesized "setter" name desc fun _ context => setterBody context desc field isStatic factor
  | .addInvoker name desc target dummy =>
    addSynthesized "invoker" name desc fun c context =>
      invokerBody c ctx.hierarchy context desc target dummy
  | .injectCallback callback => applyCallback callback
  | .addMethods source methods rules => applyMethods source methods rules
  | .copyMethod source name => applyCopy ctx source name
  | .replaceMethod name desc delegate invoke => applyDelegate name desc delegate invoke
  | .appletToPanel legacy component engine => applyEntryPoint ctx legacy component engine

end ClassWeave.Edit
