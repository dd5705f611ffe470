import ClassWeave.Hooks
import ClassWeave.Json.Record

/-!
# Hook tables as JSON

An empty owner and an absent constant are left out when a hook is written.
-/

set_option autoImplicit false

namespace ClassWeave

open Json

def ownerMember (owner : String) : List (String × Json) :=
  if owner.isEmpty then [] else [("owner", .str owner)]

namespace FieldHook

def ofJson? (j : Json) : Option FieldHook := do
  let r ← record? ["name", "owner", "obfName", "desc", "multiplier"] j
  return {
    name := ← r.required "name" text?
    owner := ← r.optional "owner" text? ""
    obfName := ← r.required "obfName" text?
    desc := ← r.required "desc" text?
    multiplier := ← r.optional "multiplier" (nullable? int64?) none }

def toJson (h : FieldHook) : Json := .obj ([("name", .str h.name)] ++ ownerMember h.owner ++
  [("obfName", .str h.obfName), ("desc", .str h.desc)] ++
  memberIfSome "multiplier" (fun m => .int m.toInt) h.multiplier)

end FieldHook

namespace MethodHook

def ofJson? (j : Json) : Option MethodHook := do
  let r ← record? ["name", "owner", "obfName", "desc", "dummyValue"] j
  return {
    name := ← r.required "name" text?
    owner := ← r.optional "owner" text? ""
    obfName := ← r.required "obfName" text?
    desc := ← r.required "desc" text?
    dummyValue := ← r.optional "dummyValue" (nullable? int64?) none }

def toJson (h : MethodHook) : Json := .obj ([("name", .str h.name)] ++ ownerMember h.owner ++
  [("obfName", .str h.obfName), ("desc", .str h.desc)] ++
  memberIfSome "dummyValue" (fun m => .int m.toInt) h.dummyValue)

end MethodHook

namespace ClassHook

def ofJson? (j : Json) : Option ClassHook := do
  let r ← record? ["name", "obfName", "fields", "methods"] j
  return {
    name := ← r.required "name" text?
    obfName := ← r.required "obfName" text?
    fields := ← r.optional "fields" (list? FieldHook.ofJson?) []
    methods := ← r.optional "methods" (list? MethodHook.ofJson?) [] }

def toJson (h : ClassHook) : Json := .obj [("name", .str h.name), ("obfName", .str h.obfName),
  ("fields", ofList FieldHook.toJson h.fields), ("methods", ofList MethodHook.toJson h.methods)]

end ClassHook

namespace HookFile

def ofJson? (j : Json) : Option HookFile := do
  let r ← record? ["classes", "staticFields", "staticMethods"] j
  return {
    classes := ← r.optional "classes" (list? ClassHook.ofJson?) []
    staticFields := ← r.optional "staticFields" (list? FieldHook.ofJson?) []
    staticMethods := ← r.optional "staticMethods" (list? MethodHook.ofJson?) [] }

def toJson (f : HookFile) : Json := .obj [("classes", ofList ClassHook.toJson f.classes),
  ("staticFields", ofList FieldHook.toJson f.staticFields),
  ("staticMethods", ofList MethodHook.toJson f.staticMethods)]

end HookFile

end ClassWeave
