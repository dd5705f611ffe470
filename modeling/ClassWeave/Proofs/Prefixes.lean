import Mathlib.Data.List.Forall2
import Mathlib.Tactic.Common
import ClassWeave.ClassFile.Decode
import ClassWeave.Proofs.Reading

/-!
# No class file begins another

A `Delimited` reader takes a piece of its own from what lies before it: what follows the piece
changes nothing, and where the piece is cut short the reader runs into the end and into nothing
else. Every part of a class file is read in this way before any body is decoded, and behind the last
part the reader wants nothing to be left.
-/

set_option autoImplicit false

namespace ClassWeave

def RunsOut {α : Type} (o : Nat) (r : Reader α) (bytes : Bytes) : Prop :=
  ∀ n < bytes.length, ∃ offset ≤ o + n, r ⟨o, bytes.take n⟩ = .error (.unexpectedEnd offset)

def Delimited {α : Type} (r : Reader α) : Prop :=
  ∀ o bytes a c, r ⟨o, bytes⟩ = .ok (a, c) →
    ∃ used, bytes = used ++ c.rest ∧ ReadsAt o r used a ∧ RunsOut o r used

def ExactlyDelimited {α : Type} (r : Reader α) : Prop :=
  ∀ o bytes a c, r ⟨o, bytes⟩ = .ok (a, c) → RunsOut o r bytes ∧
    ∀ more, more ≠ [] →
      r ⟨o, bytes ++ more⟩ = .error (.badAttribute (.fileTrailing more.length))

theorem ReadsAt.bind_eq {α β : Type} {o : Nat} {r : Reader α} {bs : Bytes} {a : α}
    (reads : ReadsAt o r bs a) (k : α → Reader β) (rest : Bytes) :
    (r >>= k) ⟨o, bs ++ rest⟩ = k a ⟨o + bs.length, rest⟩ := by
  show (r ⟨o, bs ++ rest⟩ >>= fun p => k p.1 p.2) = _
  rw [reads rest]
  rfl

namespace RunsOut

variable {α β : Type} {o : Nat}

theorem nil (r : Reader α) : RunsOut o r [] := fun n short => absurd short (Nat.not_lt_zero n)

theorem bind {r : Reader α} {k : α → Reader β} {bs cs : Bytes} {a : α} (hr : RunsOut o r bs)
    (reads : ReadsAt o r bs a) (hk : RunsOut (o + bs.length) (k a) cs) :
    RunsOut o (r >>= k) (bs ++ cs) := by
  intro n short
  rw [List.length_append] at short
  rcases Nat.lt_or_ge n bs.length with inside | past
  · obtain ⟨offset, le, failed⟩ := hr n inside
    refine ⟨offset, le, ?_⟩
    rw [List.take_append_of_le_length (Nat.le_of_lt inside)]
    show (r ⟨o, bs.take n⟩ >>= fun p => k p.1 p.2) = _
    rw [failed]
    rfl
  · obtain ⟨offset, le, failed⟩ := hk (n - bs.length) (by omega)
    refine ⟨offset, by omega, ?_⟩
    rw [List.take_append, List.take_of_length_le past, reads.bind_eq]
    exact failed

end RunsOut

namespace Delimited

variable {α β : Type}

theorem first {r : Reader α} {k : α → Reader β} {o : Nat} {bytes : Bytes} {b : β} {c : Cursor}
    (hr : Delimited r) (run : (r >>= k) ⟨o, bytes⟩ = .ok (b, c)) :
    ∃ used a rest, bytes = used ++ rest ∧ ReadsAt o r used a ∧ RunsOut o r used ∧
      k a ⟨o + used.length, rest⟩ = .ok (b, c) := by
  obtain ⟨⟨a, _, rest⟩, run, _⟩ := bind_ok_iff.1 run
  obtain ⟨used, rfl, reads, runsOut⟩ := hr _ _ _ _ run
  refine ⟨used, a, rest, rfl, reads, runsOut, ?_⟩
  rw [← reads.bind_eq k rest]
  assumption

theorem pure (a : α) : Delimited (Pure.pure a : Reader α) := by
  intro o bytes b c run
  cases run
  exact ⟨[], rfl, .pure a, .nil _⟩

theorem lift (x : Except FormatError α) : Delimited (liftM x : Reader α) := by
  intro o bytes a c run
  cases x with
  | error e => cases run
  | ok a' =>
    cases run
    exact ⟨[], rfl, .lift rfl, .nil _⟩

theorem throw (e : FormatError) : Delimited (MonadExcept.throw e : Reader α) := by
  intro o bytes a c run
  cases run

theorem bind {r : Reader α} {k : α → Reader β} (hr : Delimited r) (hk : ∀ a, Delimited (k a)) :
    Delimited (r >>= k) := by
  intro o bytes b c run
  obtain ⟨used, a, rest, rfl, reads, runsOut, second⟩ := hr.first run
  obtain ⟨used', rfl, reads', runsOut'⟩ := hk a _ _ b c second
  exact ⟨used ++ used', (List.append_assoc ..).symm, reads.bind reads', runsOut.bind reads runsOut'⟩

theorem map {r : Reader α} (f : α → β) (hr : Delimited r) : Delimited (f <$> r) := by
  rw [map_eq_pure_bind]
  exact bind hr fun a => pure (f a)

theorem ite {p : Prop} [Decidable p] {r r' : Reader α} (h : Delimited r) (h' : Delimited r') :
    Delimited (if p then r else r') := by
  split
  · exact h
  · exact h'

theorem take (n : Nat) : Delimited (Reader.take n) := by
  intro o bytes taken c run
  simp only [Reader.take] at run
  split at run
  · rename_i whole
    cases run
    have reads := ReadsAt.take (o := o) (bytes.take n)
    rw [whole] at reads
    refine ⟨bytes.take n, (List.take_append_drop n bytes).symm, reads, fun m short => ?_⟩
    rw [whole] at short
    refine ⟨o, Nat.le_add_right _ _, ?_⟩
    simp only [Reader.take, List.take_take, List.length_take]
    rw [if_neg (by omega)]
  · cases run

theorem u8 : Delimited Reader.u8 := by
  intro o bytes b c run
  cases bytes with
  | nil => cases run
  | cons b rest =>
    cases run
    refine ⟨[b], rfl, .u8 b, fun n short => ⟨o, Nat.le_add_right _ _, ?_⟩⟩
    rw [List.length_singleton, Nat.lt_one_iff] at short
    rw [short]
    rfl

theorem word (width : Nat) : Delimited (Reader.word width) := bind (take width) fun _ => pure _

theorem u16 : Delimited Reader.u16 := bind (word 2) fun _ => pure _

theorem u32 : Delimited Reader.u32 := bind (word 4) fun _ => pure _

theorem u64 : Delimited Reader.u64 := bind (word 8) fun _ => pure _

theorem i32 : Delimited Reader.i32 := bind u32 fun _ => pure _

theorem i64 : Delimited Reader.i64 := bind u64 fun _ => pure _

theorem timesAfter {r : Reader α} (hr : Delimited r) (n : Nat) (done : List α) :
    Delimited (Reader.timesAfter r n done) := by
  induction n generalizing done with
  | zero => exact pure _
  | succ n ih => exact bind hr fun a => ih (a :: done)

theorem counted {r : Reader α} (hr : Delimited r) : Delimited (Reader.counted r) :=
  bind u16 fun n => timesAfter hr n.toNat []

end Delimited

namespace ExactlyDelimited

variable {α β : Type}

theorem remaining {k : Nat → Reader α} (left : ∀ n, n ≠ 0 →
      k n = MonadExcept.throw (.badAttribute (.fileTrailing n))) :
    ExactlyDelimited (Reader.remaining >>= k) := by
  have counts : ∀ o bytes, (Reader.remaining >>= k) ⟨o, bytes⟩ = k bytes.length ⟨o, bytes⟩ :=
    fun _ _ => rfl
  intro o bytes a c run
  cases bytes with
  | cons b rest =>
    rw [counts, left _ (by simp)] at run
    cases run
  | nil =>
    refine ⟨.nil _, fun more some => ?_⟩
    rw [List.nil_append, counts, left _ (by simpa using some)]
    rfl

theorem bind {r : Reader α} {k : α → Reader β} (hr : Delimited r)
    (hk : ∀ a, ExactlyDelimited (k a)) : ExactlyDelimited (r >>= k) := by
  intro o bytes b c run
  obtain ⟨used, a, rest, rfl, reads, runsOut, second⟩ := hr.first run
  obtain ⟨runsOut', longer⟩ := hk a _ _ b c second
  refine ⟨runsOut.bind reads runsOut', fun more some => ?_⟩
  rw [List.append_assoc, reads.bind_eq]
  exact longer more some

end ExactlyDelimited

section Parts

open Delimited

theorem Constant.delimited_readPair (make : UInt16 → UInt16 → Constant) :
    Delimited (Constant.readPair make) :=
  bind u16 fun _ => bind u16 fun _ => pure _

theorem Constant.delimited_read (index : UInt16) : Delimited (Constant.read index) := by
  refine bind u8 fun tag => ?_
  split
  case h_1 =>
    refine bind u16 fun length => bind (take _) fun bytes => ?_
    split
    · exact pure _
    · exact throw _
  case h_12 => exact bind u8 fun kind => bind u16 fun _ => pure _
  case h_18 => exact throw _
  all_goals first
    | exact delimited_readPair _
    | exact bind u16 fun _ => pure _
    | exact bind i32 fun _ => pure _
    | exact bind u32 fun _ => pure _
    | exact bind i64 fun _ => pure _
    | exact bind u64 fun _ => pure _

namespace Pool

theorem delimited_readEntries (count fuel : Nat) (p : Pool) :
    Delimited (readEntries count fuel p) := by
  induction fuel generalizing p with
  | zero => exact pure p
  | succ fuel ih => exact ite (bind (Constant.delimited_read _) fun c => ih _) (pure p)

theorem delimited_read : Delimited Pool.read :=
  bind u16 fun _ => bind (delimited_readEntries _ _ _) fun p =>
    ite (bind (throw _) fun _ => pure p) (pure p)

end Pool

namespace Header

variable (p : Pool)

theorem delimited_readOpening : Delimited readOpening :=
  bind u32 fun _ => ite (bind (throw _) fun _ => bind u16 fun _ => bind u16 fun _ =>
    bind Pool.delimited_read fun _ => pure _) <|
      bind u16 fun _ => bind u16 fun _ => bind Pool.delimited_read fun _ => pure _

theorem delimited_readClassName : Delimited (readClassName p) := bind u16 fun _ => lift _

theorem delimited_readNames : Delimited (readNames p) := by
  refine bind u16 fun _ => bind (delimited_readClassName p) fun _ => bind u16 fun _ => ?_
  refine ite (bind (pure _) fun _ => ?_) (bind (map _ (lift _)) fun _ => ?_)
  all_goals exact bind (counted (delimited_readClassName p)) fun _ => pure _

end Header

namespace ClassFile

variable (p : Pool)

theorem delimited_readAttributes : Delimited (readAttributes p) :=
  counted (bind u16 fun _ => bind (lift _) fun _ => bind u32 fun _ => bind (take _) fun _ => pure _)

theorem delimited_readUtf8 : Delimited (readUtf8 p) := bind u16 fun _ => lift _

theorem delimited_readField : Delimited (readField p) :=
  bind u16 fun _ => bind (delimited_readUtf8 p) fun _ => bind (delimited_readUtf8 p) fun _ =>
    bind (delimited_readAttributes p) fun _ => pure _

theorem delimited_readMethod : Delimited (readMethod p) :=
  bind u16 fun _ => bind (delimited_readUtf8 p) fun _ => bind (delimited_readUtf8 p) fun _ =>
    bind (delimited_readAttributes p) fun _ => pure _

theorem exactlyDelimited_read : ExactlyDelimited ClassFile.read := by
  refine .bind Header.delimited_readOpening fun (minor, major, pool) => ?_
  refine .bind (Header.delimited_readNames pool) fun (access, header) => ?_
  refine .bind (counted (delimited_readField pool)) fun fields => ?_
  refine .bind (counted (delimited_readMethod pool)) fun stored => ?_
  refine .bind (delimited_readAttributes pool) fun attributes => ?_
  refine .remaining fun n some => ?_
  rw [if_pos some]
  rfl

/-- Where a class file is accepted, nothing that it goes beyond is one, since the reader misses the
rest, and nothing that goes beyond it, since the reader finds what is too much. -/
theorem parse_prefixFree {bytes : Bytes} {c : ClassFile} (accepted : parse bytes = .ok c) :
    (∀ short, short <+: bytes → short ≠ bytes →
      ∃ offset ≤ short.length, parse short = .error (.unexpectedEnd offset)) ∧
    ∀ more, more ≠ [] →
      parse (bytes ++ more) = .error (.badAttribute (.fileTrailing more.length)) := by
  have failed : ∀ bytes e, read ⟨0, bytes⟩ = .error e → parse bytes = .error e := by
    intro bytes e run
    show (read ⟨0, bytes⟩ >>= fun p => Except.ok p.1) = _
    rw [run]
    rfl
  obtain ⟨⟨c', behind⟩, run, _⟩ := bind_ok_iff.1
    (show (read ⟨0, bytes⟩ >>= fun p => Except.ok p.1) = .ok c from accepted)
  obtain ⟨runsOut, longer⟩ := exactlyDelimited_read 0 bytes c' behind run
  refine ⟨fun short cut proper => ?_, fun more some => failed _ _ (longer more some)⟩
  have shorter : short.length < bytes.length :=
    Nat.lt_of_le_of_ne cut.length_le fun same => proper (cut.eq_of_length same)
  obtain ⟨offset, le, run⟩ := runsOut short.length shorter
  rw [← List.prefix_iff_eq_take.1 cut] at run
  rw [Nat.zero_add] at le
  exact ⟨offset, le, failed _ _ run⟩

def oneField : Bytes :=
  [0xCA, 0xFE, 0xBA, 0xBE, 0, 0, 0, 52, 0, 3, 1, 0, 1, 65, 7, 0, 1, 0, 33, 0, 2, 0, 0, 0, 0,
    0, 1, 0, 2, 0, 1, 0, 1, 0, 1, 0, 1, 0, 0, 0, 1, 9, 0, 0, 0, 0]

theorem parse_oneField_cut : ∃ c, parse oneField = .ok c ∧
    (∃ offset ≤ 12, parse (oneField.take 12) = .error (.unexpectedEnd offset)) ∧
    (∃ offset ≤ 41, parse (oneField.take 41) = .error (.unexpectedEnd offset)) ∧
    parse (oneField ++ [0, 7]) = .error (.badAttribute (.fileTrailing 2)) := by
  obtain ⟨c, accepted, _⟩ := exists_ok_of_any
    (show (parse oneField).toOption.any (fun c => c.fields.length == 1) = true by decide +kernel)
  have alone := parse_prefixFree accepted
  exact ⟨c, accepted, alone.1 (oneField.take 12) (List.take_prefix ..) (by decide),
    alone.1 (oneField.take 41) (List.take_prefix ..) (by decide), alone.2 [0, 7] (by decide)⟩

end ClassFile

end Parts

end ClassWeave
