import ClassWeave.ClassFile.Encode
import ClassWeave.Edit.Apply
import ClassWeave.InjectionError

/-!
# Groups of edits

A group holds a chain of edits for each of some classes. Every chain of a pass reads the batch as it
was when the pass began; the results are put back together, and only if no chain failed. A class
that is not there is reported and no failure.
-/

set_option autoImplicit false

namespace ClassWeave

/-- Chains by class, in the order in which the classes were first named. -/
structure Group where
  chains : List (String × List Edit)

structure PassSummary where
  /-- Classes with new bytes, in the order of the chains. -/
  modified : List String
  /-- Classes that chains or edits asked for in vain. -/
  missing : List String
  deriving DecidableEq, Repr

abbrev Weaving := ExceptT InjectionError (StateM Batch)

structure ChainResult where
  name : String
  bytes : Option Bytes
  missing : List String
  deriving DecidableEq, Repr

namespace Group

def empty : Group := ⟨[]⟩

def append (name : String) (e : Edit) : List (String × List Edit) → List (String × List Edit)
  | [] => [(name, [e])]
  | c :: rest => if c.1 == name then (c.1, c.2 ++ [e]) :: rest else c :: append name e rest

def add (g : Group) (name : String) (e : Edit) : Group := ⟨append name e g.chains⟩

def ofList (edits : List (String × Edit)) : Group := edits.foldl (fun g e => g.add e.1 e.2) empty

def size (g : Group) : Nat := g.chains.length

def isEmpty (g : Group) : Bool := g.chains.isEmpty

/-- The hierarchy of a batch, which takes every head to be well formed. -/
def hierarchy (b : Batch) : Except InjectionError Hierarchy :=
  b.entries.foldlM (fun h e =>
    match Header.parse e.2 with
    | .ok header => .ok (h.insert header)
    | .error cause => .error (.malformed e.1 cause)) Hierarchy.empty

/-- Runs edits one after the other; says whether one of them changed the class, and which classes
were missing. An edit whose source is missing is passed over. -/
def applyAll (ctx : EditContext) (name : String) :
    List Edit → ClassFile → Bool → List String →
    Except InjectionError (ClassFile × Bool × List String)
  | [], c, changed, missing => .ok (c, changed, missing.reverse)
  | e :: rest, c, changed, missing =>
    match (e.apply ctx).run c with
    | (.ok changedNow, c) => applyAll ctx name rest c (changed || changedNow) missing
    | (.error (.missingSource source), c) => applyAll ctx name rest c changed (source :: missing)
    | (.error cause, _) => .error (.edit name e.name cause)

def weaveClass (ctx : EditContext) (name : String) (bytes : Bytes) (chain : List Edit) :
    Except InjectionError ChainResult := do
  let c ← (ClassFile.parse bytes).mapError (.malformed name)
  let (c, changed, missing) ← applyAll ctx name chain c false []
  if !changed then return ⟨name, none, missing⟩
  let bytes ← (c.encode ctx.hierarchy).mapError (.write name)
  return ⟨name, some bytes, missing⟩

def outcomes (g : Group) (ctx : EditContext) : Except InjectionError (List ChainResult) :=
  (g.chains.filterMap fun c => (ctx.batch.get? c.1).map (c, ·)).mapM fun (c, bytes) =>
    weaveClass ctx c.1 bytes c.2

def writeBack (b : Batch) (outcomes : List ChainResult) : Batch :=
  outcomes.foldl (fun b o =>
    match o.bytes with
    | some bytes => b.insert o.name bytes
    | none => b) b

/-- One pass over a batch. Types that are not in the batch are looked up in the library. -/
def run (g : Group) (library : HeaderMap) (b : Batch) :
    Except InjectionError (PassSummary × Batch) := do
  let h ← hierarchy b
  let outcomes ← g.outcomes ⟨b, h.backedBy library⟩
  let absent := (g.chains.map Prod.fst).filter fun name => !b.contains name
  return (⟨(outcomes.filter fun o => o.bytes.isSome).map ChainResult.name,
    absent ++ outcomes.flatMap ChainResult.missing⟩, writeBack b outcomes)

def apply (g : Group) (library : HeaderMap) : Weaving PassSummary := fun b =>
  match g.run library b with
  | .ok (report, woven) => (.ok report, woven)
  | .error e => (.error e, b)

end Group

end ClassWeave
