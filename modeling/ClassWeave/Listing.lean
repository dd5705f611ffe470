import ClassWeave.ClassFile

/-!
# Listings

The readable form of a class: its head, its members and, on request, the bodies with numbered
instructions. Long raw attributes are cut to their first bytes.
-/

set_option autoImplicit false

namespace ClassWeave.Listing

def previewLength : Nat := 32

def padLeft (width : Nat) (text : String) : String :=
  String.ofList (List.replicate (width - text.length) ' ') ++ text

def padRight (width : Nat) (text : String) : String :=
  text ++ String.ofList (List.replicate (width - text.length) ' ')

def modifiers (access : Access) (ofMethod : Bool) : String :=
  let words := access.keywords ofMethod
  if words.isEmpty then "" else words ++ " "

def attributeLine (indent : String) (a : Attribute) : String :=
  let ellipsis := if previewLength < a.data.length then "..." else ""
  indent ++ "@" ++ a.name ++ s!" [{a.data.length} bytes] " ++
    Hex.encode (a.data.take previewLength) ++ ellipsis

def numbered : Nat → List Insn → List String
  | _, [] => []
  | i, insn :: rest =>
    if insn.isExecuted then
      ("      " ++ padLeft 4 (toString i) ++ "  " ++ insn.text) :: numbered (i + 1) rest
    else ("      " ++ insn.text) :: numbered i rest

def handler (h : Handler) : String :=
  "    try " ++ h.start.text ++ ".." ++ h.finish.text ++ " -> " ++ h.target.text ++ " catch " ++
    h.catchType.getD "any"

def body (c : Code) : List String :=
  s!"    stack={c.maxStack} locals={c.maxLocals}" :: numbered 0 c.insns ++
    c.handlers.map handler

def field (f : Field) : List String :=
  ["", "  " ++ modifiers f.access false ++ f.name ++ " " ++ f.desc] ++
    f.attributes.map (attributeLine "    ")

def method (bodies : Bool) (m : Method) : List String :=
  ["", "  " ++ modifiers m.access true ++ m.name ++ m.desc] ++
    m.attributes.map (attributeLine "    ") ++
    match m.code with
    | some c => if bodies then body c else []
    | none => []

def head (c : ClassFile) : List String :=
  [modifiers c.access false ++ (if c.isInterface then "interface " else "class ") ++ c.name ++
    s!" (version {c.major}.{c.minor})"] ++
  (match c.superName with
    | some name => ["  extends " ++ name]
    | none => []) ++
  (if c.interfaces.isEmpty then [] else ["  implements " ++ ", ".intercalate c.interfaces]) ++
  [s!"  constant pool: {c.pool.size} entries"] ++
  c.attributes.map (attributeLine "  ")

def lines (c : ClassFile) (bodies : Bool) : List String :=
  head c ++ c.fields.flatMap field ++ c.methods.flatMap (method bodies)

def render (c : ClassFile) (bodies : Bool) : String :=
  (lines c bodies).foldl (fun text line => text ++ line ++ "\n") ""

end ClassWeave.Listing
