import ClassWeave.Json.Record
import ClassWeave.Mixin

/-!
# Mixins as JSON

The compiled class is no part of the text. Absent names and marks are left out when a mixin is
written.
-/

set_option autoImplicit false

namespace ClassWeave

open Json

namespace MixinMethod

def ofJson? (j : Json) : Option MixinMethod := do
  let r ← record? ["name", "desc", "abstract"] j
  return {
    name := ← r.required "name" text?
    desc := ← r.required "desc" text?
    isAbstract := ← r.optional "abstract" (nullable? bool?) none }

def toJson (m : MixinMethod) : Json := .obj ([("name", .str m.name), ("desc", .str m.desc)] ++
  memberIfSome "abstract" .bool m.isAbstract)

end MixinMethod

namespace MixinField

def access? : Json → Option Access
  | .str text => Access.ofText? text
  | _ => none

def ofJson? (j : Json) : Option MixinField := do
  let r ← record? ["name", "desc", "access", "shadow", "getter", "setter"] j
  return {
    name := ← r.required "name" text?
    desc := ← r.required "desc" text?
    access := ← r.optional "access" access? Access.none
    shadow := ← r.optional "shadow" (nullable? text?) none
    getter := ← r.optional "getter" (nullable? text?) none
    setter := ← r.optional "setter" (nullable? text?) none }

def toJson (f : MixinField) : Json := .obj ([("name", .str f.name), ("desc", .str f.desc),
  ("access", .str f.access.text)] ++ memberIfSome "shadow" .str f.shadow ++
  memberIfSome "getter" .str f.getter ++ memberIfSome "setter" .str f.setter)

end MixinField

namespace HookUse

def ofJson? (j : Json) : Option HookUse := do
  let r ← record? ["hook", "method", "isStatic"] j
  return {
    hook := ← r.required "hook" text?
    method := ← r.required "method" MixinMethod.ofJson?
    isStatic := ← r.optional "isStatic" bool? false }

def toJson (m : HookUse) : Json := .obj [("hook", .str m.hook), ("method", m.method.toJson),
  ("isStatic", .bool m.isStatic)]

end HookUse

namespace MixinSetter

def ofJson? (j : Json) : Option MixinSetter := do
  let r ← record? ["hook", "method", "isStatic", "encode"] j
  return {
    hook := ← r.required "hook" text?
    method := ← r.required "method" MixinMethod.ofJson?
    isStatic := ← r.optional "isStatic" bool? false
    encode := ← r.optional "encode" bool? true }

def toJson (s : MixinSetter) : Json := .obj [("hook", .str s.hook), ("method", s.method.toJson),
  ("isStatic", .bool s.isStatic), ("encode", .bool s.encode)]

end MixinSetter

namespace Placement

def ofName? (name : String) : Option Placement :=
  if name = "before" then some .before else if name = "after" then some .after else none

/-- A name, or an object with the name as its only member and nothing in it, by `isNothing`. -/
def ofJson? (isNothing : Json → Bool) : Json → Option Placement
  | .str name => ofName? name
  | .obj [(name, v)] => if isNothing v then ofName? name else none
  | _ => none

def toJson : Placement → Json
  | .before => .str "before"
  | .after => .str "after"

end Placement

namespace MixinCallback

def ofJson? (isNothing : Json → Bool) (j : Json) : Option MixinCallback := do
  let r ← record? ["hook", "method", "placement", "end"] j
  return {
    hook := ← r.required "hook" text?
    method := ← r.required "method" MixinMethod.ofJson?
    placement := ← r.required "placement" (Placement.ofJson? isNothing)
    replacesResult := ← r.optional "end" bool? false }

def toJson (c : MixinCallback) : Json := .obj [("hook", .str c.hook), ("method", c.method.toJson),
  ("placement", c.placement.toJson), ("end", .bool c.replacesResult)]

end MixinCallback

namespace Mixin

def fieldNames : List String := ["target", "interfaces", "fields", "getters", "setters", "invokes",
  "injects", "copies", "replaces", "methods"]

def ofRecord? (isNothing : Json → Bool) (r : Record) : Option Mixin := do
  return {
    target := ← r.required "target" text?
    compiled := none
    interfaces := ← r.optional "interfaces" (list? text?) []
    fields := ← r.optional "fields" (list? MixinField.ofJson?) []
    getters := ← r.optional "getters" (list? HookUse.ofJson?) []
    setters := ← r.optional "setters" (list? MixinSetter.ofJson?) []
    invokers := ← r.optional "invokes" (list? HookUse.ofJson?) []
    callbacks := ← r.optional "injects" (list? (MixinCallback.ofJson? isNothing)) []
    copies := ← r.optional "copies" (list? HookUse.ofJson?) []
    replacements := ← r.optional "replaces" (list? HookUse.ofJson?) []
    methods := ← r.optional "methods" (list? MixinMethod.ofJson?) [] }

def ofJson? (j : Json) : Option Mixin := do ofRecord? isNull (← record? fieldNames j)

def toJson (m : Mixin) : Json := .obj [("target", .str m.target),
  ("interfaces", ofList .str m.interfaces), ("fields", ofList MixinField.toJson m.fields),
  ("getters", ofList HookUse.toJson m.getters),
  ("setters", ofList MixinSetter.toJson m.setters),
  ("invokes", ofList HookUse.toJson m.invokers),
  ("injects", ofList MixinCallback.toJson m.callbacks),
  ("copies", ofList HookUse.toJson m.copies),
  ("replaces", ofList HookUse.toJson m.replacements),
  ("methods", ofList MixinMethod.toJson m.methods)]

end Mixin

end ClassWeave
