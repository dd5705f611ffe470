import ClassWeave.Proofs.Copies
import ClassWeave.Proofs.Group
import ClassWeave.Proofs.Renamed

/-!
# Lambda bodies of one name

A copied call site finds its lambda body by signature. A body comes along where the signature is
free. A method that has the signature already stays in front, whatever its body, and the call site
then ends up there; of two sources with lambdas of one name, the second one's runs the first one's.
-/

set_option autoImplicit false

namespace ClassWeave

/-- The class finds a method under the signature, and that has the body. -/
def ClassFile.HasBody (c : ClassFile) (name desc : String) (code : Option Code) : Prop :=
  ∃ m, c.method? name desc = some m ∧ m.code = code

theorem Method.Holds.rehome {m : Method} {h : Handle} (held : m.Holds h) (r : Renaming) :
    (r.rehome m).Holds (r.handle h) := by
  obtain ⟨code, isCode, insn, mem, held⟩ := held
  refine ⟨(r.code code).markStale, by rw [Renaming.rehome, isCode]; rfl, r.insn insn, ?_, ?_⟩
  · rw [Code.insns_markStale]
    exact List.mem_map_of_mem mem
  · rw [← Insn.mem_handles_iff, Renaming.handles_insn]
    exact List.mem_map_of_mem (Insn.mem_handles_iff.2 held)

def ClassFile.Prolongs (c c' : ClassFile) : Prop :=
  ∃ more, c' = { c with methods := c.methods ++ more }

namespace ClassFile.Prolongs

variable {c c' c'' : ClassFile}

theorem refl (c : ClassFile) : c.Prolongs c := ⟨[], by rw [List.append_nil]⟩

theorem trans (first : c.Prolongs c') (second : c'.Prolongs c'') : c.Prolongs c'' := by
  obtain ⟨more, rfl⟩ := first
  obtain ⟨more', rfl⟩ := second
  exact ⟨more ++ more', by rw [List.append_assoc]⟩

theorem name (h : c.Prolongs c') : c'.name = c.name := by
  obtain ⟨more, rfl⟩ := h
  rfl

theorem method? {name desc : String} {m : Method} (h : c.Prolongs c')
    (found : c.method? name desc = some m) : c'.method? name desc = some m := by
  obtain ⟨more, rfl⟩ := h
  rw [ClassFile.method?, List.find?_append, ← ClassFile.method?, found]
  rfl

theorem addMethod (c : ClassFile) (m : Method) : c.Prolongs (c.addMethod m).2 := by
  unfold ClassFile.addMethod
  split
  · exact .refl c
  · exact ⟨[m], rfl⟩

end ClassFile.Prolongs

namespace Edit

variable {source c c' : ClassFile} {r : Renaming} {methods all : List (String × String)}
  {s t : String × String} {m : Method} {ctx : EditContext}

theorem prolongs_bring (source : ClassFile) (r : Renaming) (c : ClassFile) (s : String × String) :
    c.Prolongs (bring source r c s) := by
  unfold bring
  split
  · exact .refl c
  · exact .addMethod c _

theorem prolongs_foldl_bring (source : ClassFile) (r : Renaming) (c : ClassFile)
    (all : List (String × String)) : c.Prolongs (all.foldl (bring source r) c) := by
  induction all generalizing c with
  | nil => exact .refl c
  | cons s rest ih => exact (prolongs_bring source r c s).trans (ih _)

theorem method?_bring_of_ne (free : c.method? t.1 (r.desc t.2) = none)
    (other : s.1 = t.1 → r.desc s.2 ≠ r.desc t.2) :
    (bring source r c s).method? t.1 (r.desc t.2) = none := by
  unfold bring ClassFile.addMethod
  split
  · exact free
  · rename_i m found
    split
    · exact free
    · rw [ClassFile.method?, List.find?_append, ← ClassFile.method?, free, Option.none_or,
        List.find?_singleton, if_neg]
      rw [hasSignature_rehome_iff found]
      rintro ⟨sameName, sameDesc⟩
      exact other sameName sameDesc

/-- Nothing else that comes along is copied under the signature of `s`. -/
def Alone (source : ClassFile) (methods : List (String × String)) (r : Renaming)
    (s : String × String) : Prop :=
  ∀ t, Brought source methods t → t.1 = s.1 → r.desc t.2 = r.desc s.2 → t = s

theorem method?_foldl_bring (found : source.method? s.1 s.2 = some m) (mem : s ∈ all)
    (free : c.method? s.1 (r.desc s.2) = none)
    (alone : ∀ t ∈ all, t.1 = s.1 → r.desc t.2 = r.desc s.2 → t = s) :
    (all.foldl (bring source r) c).method? s.1 (r.desc s.2) = some (r.rehome m) := by
  induction all generalizing c with
  | nil => cases mem
  | cons t rest ih =>
    obtain ⟨here, later⟩ := List.forall_mem_cons.1 alone
    rw [List.foldl_cons]
    by_cases own : t = s
    · subst own
      apply (prolongs_foldl_bring source r _ rest).method?
      have clear : ¬ (c.method? t.1 (r.desc t.2)).isSome = true := by
        rw [free]
        exact Bool.false_ne_true
      rw [bring_of_free found clear, ← method?_rehome found]
      exact method?_added (method?_rehome found ▸ clear)
    · refine ih ((List.mem_cons.1 mem).resolve_left (Ne.symm own)) ?_ later
      exact method?_bring_of_ne free fun sameName sameDesc => own (here sameName sameDesc)

theorem prolongs_of_run {now : Bool}
    (run : (apply ctx (.addMethods source methods r)).run c = (.ok now, c')) : c.Prolongs c' := by
  obtain ⟨all, _, _, rfl, _⟩ := copied_of_run run
  exact prolongs_foldl_bring source r c all

theorem method?_of_run {now : Bool}
    (run : (apply ctx (.addMethods source methods r)).run c = (.ok now, c'))
    (brought : Brought source methods s) (found : source.method? s.1 s.2 = some m)
    (free : c.method? s.1 (r.desc s.2) = none) (alone : Alone source methods r s) :
    c'.method? s.1 (r.desc s.2) = some (r.rehome m) := by
  obtain ⟨all, same, _, rfl, _⟩ := copied_of_run run
  exact method?_foldl_bring found ((same s).2 brought) free fun t mem => alone t ((same t).1 mem)

def CopiesMethods : Edit → Prop
  | .addMethods _ _ _ => True
  | _ => False

end Edit

namespace Group

variable {ctx : EditContext} {c last : ClassFile} {changed : Bool} {missing : List String}

theorem Ran.append {first second : List Edit}
    (ran : Ran ctx (first ++ second) c last changed missing) :
    ∃ mid now later lacks lacks', Ran ctx first c mid now lacks ∧
      Ran ctx second mid last later lacks' ∧ missing = lacks ++ lacks' := by
  induction first generalizing c changed missing with
  | nil => exact ⟨c, false, changed, [], missing, .done c, ran, rfl⟩
  | cons e rest ih =>
    cases ran with
    | applied step ran =>
      obtain ⟨mid, now, later, lacks, lacks', before, behind, rfl⟩ := ih ran
      exact ⟨mid, _, later, lacks, lacks', .applied step before, behind, rfl⟩
    | passedOver step ran =>
      obtain ⟨mid, now, later, lacks, lacks', before, behind, rfl⟩ := ih ran
      exact ⟨mid, now, later, _ :: lacks, lacks', .passedOver step before, behind, rfl⟩

theorem Ran.prolongs {chain : List Edit} (copies : ∀ e ∈ chain, e.CopiesMethods)
    (ran : Ran ctx chain c last changed missing) : c.Prolongs last ∧ missing = [] := by
  induction ran with
  | done c => exact ⟨.refl c, rfl⟩
  | @applied e rest c next last now later missing step _ ih =>
    obtain ⟨first, others⟩ := List.forall_mem_cons.1 copies
    obtain ⟨behind, none⟩ := ih others
    cases e with
    | addMethods source methods r => exact ⟨(Edit.prolongs_of_run step).trans behind, none⟩
    | _ => exact first.elim
  | @passedOver e rest c next last later source missing step _ _ =>
    cases e with
    | addMethods source methods r => exact (Edit.copyPending_not_missing step).elim
    | _ => exact (List.forall_mem_cons.1 copies).1.elim

end Group

namespace Edit

variable {source c last : ClassFile} {r : Renaming} {methods : List (String × String)}
  {ctx : EditContext}

/-- In a chain of copies a method that is asked for is copied where its signature is free. A handle
of its at a lambda body of its source then finds that body in the end if and only if no method had
the signature before, or the one that had it had the same body. -/
theorem lambda_reached_iff {before after : List Edit} {changed : Bool} {missing : List String}
    (copies : ∀ e ∈ before ++ .addMethods source methods r :: after, e.CopiesMethods)
    (ran : Group.Ran ctx (before ++ .addMethods source methods r :: after) c last changed missing) :
    ∃ mid now, Group.Ran ctx before c mid now [] ∧
      ∀ s ∈ methods, mid.method? s.1 (r.desc s.2) = none → Alone source methods r s →
        ∃ m, source.method? s.1 s.2 = some m ∧
          last.method? s.1 (r.desc s.2) = some (r.rehome m) ∧
          ∀ h lambda, m.Holds h → LambdaOf source lambda h →
            r.redirect h.member = (c.name, lambda.name) →
            (r.rehome m).Holds (r.handle h) ∧
            (r.handle h).member = ⟨last.name, lambda.name, r.desc lambda.desc⟩ ∧
            (Alone source methods r lambda.signature →
              (last.HasBody lambda.name (r.desc lambda.desc) (r.rehome lambda).code ↔
                ∀ taken, mid.method? lambda.name (r.desc lambda.desc) = some taken →
                  taken.code = (r.rehome lambda).code)) := by
  obtain ⟨mid, now, _, lacks, lacks', first, second, _⟩ := ran.append
  obtain ⟨early, others⟩ := List.forall_mem_append.1 copies
  obtain ⟨_, late⟩ := List.forall_mem_cons.1 others
  obtain ⟨_, rfl⟩ := first.prolongs early
  refine ⟨mid, now, first, fun s asked free alone => ?_⟩
  have name : last.name = c.name := (ran.prolongs copies).1.name
  cases second with
  | passedOver step _ => exact (copyPending_not_missing step).elim
  | @applied _ _ _ next _ _ _ _ step rest =>
    have kept : next.Prolongs last := (rest.prolongs late).1
    obtain ⟨m, found⟩ := Option.isSome_iff_exists.1 (copied_apply step asked).1
    refine ⟨m, found, kept.method? (method?_of_run step (.asked asked) found free alone), ?_⟩
    intro h lambda held of redirected
    obtain ⟨sameName, sameDesc⟩ := of.signature
    refine ⟨held.rehome r, ?_, fun alone' => ?_⟩
    · rw [Renaming.handle, of.method, Renaming.method, redirected, name, sameDesc]
      rfl
    have along : Brought source methods lambda.signature :=
      (Brought.asked asked).along found ⟨h, lambda, held, of, rfl⟩
    have own : source.method? lambda.name lambda.desc = some lambda := by
      rw [sameName, sameDesc, of.found]
    cases taken : mid.method? lambda.name (r.desc lambda.desc) with
    | none =>
      have copied : last.method? lambda.name (r.desc lambda.desc) = some (r.rehome lambda) :=
        kept.method? (method?_of_run step along own taken alone')
      refine iff_of_true ⟨_, copied, rfl⟩ fun other here => ?_
      cases here
    | some other =>
      have stays : last.method? lambda.name (r.desc lambda.desc) = some other :=
        ((prolongs_of_run step).trans kept).method? taken
      constructor
      · rintro ⟨n, reached, same⟩ _ ⟨⟩
        rw [stays, Option.some.injEq] at reached
        exact reached ▸ same
      · exact fun same => ⟨other, stays, same other rfl⟩

def taskSource (name task : String) (body : List Insn) : ClassFile :=
  let insns : List Insn := [.ldc (.handle (lambdaHandle name "lambda$0")), .simple Opcode.pop,
    .simple Opcode.returnVoid]
  { ClassFile.new name none with
    methods := [⟨⟨0⟩, task, "()V", some (Code.ofInsns insns), []⟩, lambdaBody "lambda$0" body] }

def taskRules (name : String) : Renaming := Renaming.empty.renameClass name "a"

def firstSource : ClassFile := taskSource "m1" "first" [.simple Opcode.returnVoid]

def secondSource : ClassFile :=
  taskSource "m2" "second" [.simple Opcode.nop, .simple Opcode.returnVoid]

def firstCopy : Edit := .addMethods firstSource [("first", "()V")] (taskRules "m1")

def secondCopy : Edit := .addMethods secondSource [("second", "()V")] (taskRules "m2")

def oneTask : ClassFile := ((firstCopy.apply noContext).run (ClassFile.new "a" none)).2

def twoTasks : ClassFile := ((secondCopy.apply noContext).run oneTask).2

theorem run_firstCopy : (firstCopy.apply noContext).run (ClassFile.new "a" none) =
    (.ok true, oneTask) := Prod.ext (by decide +kernel) rfl

theorem run_secondCopy : (secondCopy.apply noContext).run oneTask = (.ok true, twoTasks) :=
  Prod.ext (by decide +kernel) rfl

theorem ran_copies :
    Group.Ran noContext [firstCopy, secondCopy] (ClassFile.new "a" none) twoTasks true [] :=
  .applied run_firstCopy (.applied run_secondCopy (.done twoTasks))

theorem copiesMethods_copies : ∀ e ∈ [firstCopy, secondCopy], e.CopiesMethods := by
  intro e mem
  rcases List.mem_cons.1 mem with rfl | mem
  · trivial
  · rw [List.mem_singleton.1 mem]
    trivial

theorem lambda_reached_firstCopy :
    Group.Ran noContext [firstCopy, secondCopy] (ClassFile.new "a" none) twoTasks true [] ∧
      twoTasks.HasBody "lambda$0" "()V" (some (Code.ofInsns [.simple Opcode.returnVoid])) := by
  have desc : (taskRules "m1").desc "()V" = "()V" := by decide +kernel
  have brought {s : String × String} (h : Brought firstSource [("first", "()V")] s) :
      s ∈ [("first", "()V"), ("lambda$0", "()V")] := h.mem (by decide) (by decide)
  have alone (s : String × String) (mem : s ∈ [("first", "()V"), ("lambda$0", "()V")]) :
      Alone firstSource [("first", "()V")] (taskRules "m1") s := by
    intro t h sameName _
    have names : ∀ s ∈ [("first", "()V"), ("lambda$0", "()V")],
        ∀ t ∈ [("first", "()V"), ("lambda$0", "()V")], t.1 = s.1 → t = s := by decide
    exact names s mem t (brought h) sameName
  obtain ⟨mid, now, ran, reached⟩ := @lambda_reached_iff firstSource (ClassFile.new "a" none)
    twoTasks (taskRules "m1") [("first", "()V")] noContext [] [secondCopy] true []
    copiesMethods_copies ran_copies
  cases ran
  obtain ⟨m, found, _, handles⟩ := reached ("first", "()V") (by decide) rfl (alone _ (by decide))
  cases found
  obtain ⟨_, _, iff⟩ := handles (lambdaHandle "m1" "lambda$0")
    (lambdaBody "lambda$0" [.simple Opcode.returnVoid])
    ⟨_, rfl, _, List.mem_cons_self, .constant (.handle _)⟩ ⟨rfl, rfl, rfl, by decide⟩
    (by decide +kernel)
  have own := (iff (alone _ (by decide))).2 fun _ h => nomatch h
  exact ⟨ran_copies, desc ▸ own⟩

/-- The second one, from another class, does not. -/
theorem lambda_missed :
    ¬ ∀ (ctx : EditContext) (before after : List Edit) (source : ClassFile)
      (methods : List (String × String)) (r : Renaming) (c mid last : ClassFile)
      (now changed : Bool) (missing : List String),
      (∀ e ∈ before ++ .addMethods source methods r :: after, e.CopiesMethods) →
      (∀ other methods' r', .addMethods other methods' r' ∈ before ++ after →
        other.name ≠ source.name) →
      Group.Ran ctx before c mid now [] →
      Group.Ran ctx (before ++ .addMethods source methods r :: after) c last changed missing →
      ∀ s ∈ methods, ∀ m, source.method? s.1 s.2 = some m → mid.method? s.1 (r.desc s.2) = none →
        ∀ h lambda, m.Holds h → LambdaOf source lambda h →
          r.redirect h.member = (c.name, lambda.name) →
          last.HasBody lambda.name (r.desc lambda.desc) (r.rehome lambda).code := by
  intro always
  have apart : ∀ other methods' r', .addMethods other methods' r' ∈ [firstCopy] →
      other.name ≠ secondSource.name := by
    intro other methods' r' mem
    cases List.mem_singleton.1 mem
    decide
  obtain ⟨m, found, same⟩ := always noContext [firstCopy] [] secondSource [("second", "()V")]
    (taskRules "m2") (ClassFile.new "a" none) oneTask twoTasks true true [] copiesMethods_copies
    apart (.applied run_firstCopy (.done oneTask)) ran_copies ("second", "()V") (by decide) _ rfl
    (by decide +kernel)
    (lambdaHandle "m2" "lambda$0")
    (lambdaBody "lambda$0" [.simple Opcode.nop, .simple Opcode.returnVoid])
    ⟨_, rfl, _, List.mem_cons_self, .constant (.handle _)⟩ ⟨rfl, rfl, rfl, by decide⟩
    (by decide +kernel)
  have first : twoTasks.method? "lambda$0" ((taskRules "m2").desc "()V") =
      some (lambdaBody "lambda$0" [.simple Opcode.returnVoid]) := by decide +kernel
  obtain rfl := Option.some.inj (first.symm.trans found)
  exact absurd same (by decide +kernel)

end Edit

end ClassWeave
