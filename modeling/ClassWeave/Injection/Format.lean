import ClassWeave.Injection
import ClassWeave.Json.Record

/-!
# Injection settings as JSON
-/

set_option autoImplicit false

namespace ClassWeave

open Json

namespace EntryPointSettings

def ofJson? (j : Json) : Option EntryPointSettings := do
  let r ← record? ["hook", "legacySuperclass", "componentSuperclass"] j
  return {
    hook := ← r.required "hook" text?
    legacySuperclass := ← r.required "legacySuperclass" text?
    componentSuperclass := ← r.required "componentSuperclass" text? }

def toJson (c : EntryPointSettings) : Json := .obj [("hook", .str c.hook),
  ("legacySuperclass", .str c.legacySuperclass),
  ("componentSuperclass", .str c.componentSuperclass)]

end EntryPointSettings

namespace InjectionSettings

def ofJson? (j : Json) : Option InjectionSettings := do
  let r ← record? ["entryPoint", "parallel", "classpath"] j
  return {
    entryPoint := ←
      r.optional "entryPoint" (nullable? EntryPointSettings.ofJson?) standard.entryPoint
    parallel := ← r.optional "parallel" bool? standard.parallel
    classpath := ← r.optional "classpath" (list? text?) standard.classpath }

def toJson (c : InjectionSettings) : Json := .obj [
  ("entryPoint", (c.entryPoint.map EntryPointSettings.toJson).getD .null),
  ("parallel", .bool c.parallel), ("classpath", ofList .str c.classpath)]

end InjectionSettings

end ClassWeave
