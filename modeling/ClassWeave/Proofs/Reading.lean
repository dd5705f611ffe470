import Mathlib.Data.List.Forall2
import Mathlib.Tactic.Common
import ClassWeave.Cursor
import ClassWeave.Proofs.Sequences

/-!
# What a reader makes of given bytes

`ReadsAt offset r bytes a` says that `r`, standing at `offset` in front of `bytes`, gives `a` and
stops right behind them, whatever follows. The statement composes along `bind`, so a stored form
is read back part by part. `Yields r P` looks the other way: whatever `r` accepts has `P`.
-/

set_option autoImplicit false

namespace ClassWeave

def ReadsAt {α : Type} (offset : Nat) (r : Reader α) (bytes : Bytes) (a : α) : Prop :=
  ∀ rest, r ⟨offset, bytes ++ rest⟩ = .ok (a, ⟨offset + bytes.length, rest⟩)

def ReadsAll {α : Type} (offset : Nat) (r : Reader α) (bytes : Bytes) (a : α) : Prop :=
  r ⟨offset, bytes⟩ = .ok (a, ⟨offset + bytes.length, []⟩)

def Yields {α : Type} (r : Reader α) (P : α → Prop) : Prop :=
  ∀ c a c', r c = .ok (a, c') → P a

namespace ReadsAt

variable {α β : Type} {o : Nat}

theorem pure (a : α) : ReadsAt o (Pure.pure a : Reader α) [] a := fun _ => rfl

theorem bind {r : Reader α} {k : α → Reader β} {bs cs : Bytes} {a : α} {b : β}
    (hr : ReadsAt o r bs a) (hk : ReadsAt (o + bs.length) (k a) cs b) :
    ReadsAt o (r >>= k) (bs ++ cs) b := by
  intro rest
  show (r ⟨o, bs ++ cs ++ rest⟩ >>= fun p => k p.1 p.2) = _
  rw [List.append_assoc, hr (cs ++ rest)]
  show k a ⟨o + bs.length, cs ++ rest⟩ = _
  rw [hk rest, List.length_append, Nat.add_assoc]

theorem bind_nil {r : Reader α} {k : α → Reader β} {cs : Bytes} {a : α} {b : β}
    (hr : ReadsAt o r [] a) (hk : ReadsAt o (k a) cs b) : ReadsAt o (r >>= k) cs b :=
  bind hr hk

theorem bind_last {r : Reader α} {k : α → Reader β} {bs : Bytes} {a : α} {b : β}
    (hr : ReadsAt o r bs a) (hk : ReadsAt (o + bs.length) (k a) [] b) :
    ReadsAt o (r >>= k) bs b := by
  have h := bind hr hk
  rwa [List.append_nil] at h

theorem map {r : Reader α} {bs : Bytes} {a : α} (f : α → β) (hr : ReadsAt o r bs a) :
    ReadsAt o (f <$> r) bs (f a) := by
  intro rest
  show (r ⟨o, bs ++ rest⟩ >>= fun p => Except.ok (f p.1, p.2)) = _
  rw [hr rest]
  rfl

theorem lift {x : Except FormatError α} {a : α} (h : x = .ok a) :
    ReadsAt o (liftM x : Reader α) [] a := by
  subst h
  intro rest
  rfl

theorem mapM_lift {f : α → Except FormatError β} {as : List α} {bs : List β}
    (h : as.mapM f = .ok bs) : ReadsAt o (as.mapM fun a => (liftM (f a) : Reader β)) [] bs := by
  induction mapM_ok_iff.1 h generalizing o with
  | nil =>
    rw [List.mapM_nil]
    exact pure _
  | cons first rest ih =>
    rw [List.mapM_cons]
    exact bind_nil (lift first) (bind_nil (ih (mapM_ok_iff.2 rest)) (pure _))

theorem take (bytes : Bytes) : ReadsAt o (Reader.take bytes.length) bytes bytes :=
  fun rest => Reader.take_append o bytes rest

theorem u8 (b : UInt8) : ReadsAt o Reader.u8 [b] b := fun _ => rfl

theorem word (width n : Nat) (h : n < Nat.pow 256 width) :
    ReadsAt o (Reader.word width) (Bytes.be width n) n := by
  intro rest
  have read := Reader.word_be o width n rest
  rw [Nat.mod_eq_of_lt h] at read
  rw [Bytes.length_be]
  exact read

theorem u16 (n : Nat) (h : n < 65536) :
    ReadsAt o Reader.u16 (Bytes.be 2 n) (UInt16.ofNat n) :=
  bind_last (word 2 n h) (pure _)

theorem u32 (n : Nat) (h : n < 4294967296) :
    ReadsAt o Reader.u32 (Bytes.be 4 n) (UInt32.ofNat n) :=
  bind_last (word 4 n h) (pure _)

theorem u16_toNat (n : UInt16) : ReadsAt o Reader.u16 (Bytes.be 2 n.toNat) n := by
  have h := u16 (o := o) n.toNat n.toNat_lt
  rwa [UInt16.ofNat_toNat] at h

theorem u32_toNat (n : UInt32) : ReadsAt o Reader.u32 (Bytes.be 4 n.toNat) n := by
  have h := u32 (o := o) n.toNat n.toNat_lt
  rwa [UInt32.ofNat_toNat] at h

theorem u64_toNat (n : UInt64) : ReadsAt o Reader.u64 (Bytes.be 8 n.toNat) n := by
  have h : ReadsAt o Reader.u64 (Bytes.be 8 n.toNat) (UInt64.ofNat n.toNat) :=
    bind_last (word 8 n.toNat n.toNat_lt) (pure _)
  rwa [UInt64.ofNat_toNat] at h

theorem u16_any (b c : UInt8) : ReadsAt o Reader.u16 [b, c] (UInt16.ofNat (Bytes.ofBE [b, c])) :=
  bind_last (bind_last (take [b, c]) (pure _)) (pure _)

theorem i32 (v : Int32) : ReadsAt o Reader.i32 (Bytes.be 4 (Bytes.ofInt32 v)) v :=
  bind_last (u32_toNat v.toUInt32) (pure _)

theorem i64 (v : Int64) : ReadsAt o Reader.i64 (Bytes.be 8 (Bytes.ofInt64 v)) v :=
  bind_last (u64_toNat v.toUInt64) (pure _)

theorem i16 (v : Int16) : ReadsAt o Reader.i16 (Bytes.be 2 (Bytes.ofInt16 v)) v :=
  bind_last (u16_toNat v.toUInt16) (pure _)

theorem skipTo (target : Nat) (bytes : Bytes) (hb : bytes.length = target - o) :
    ReadsAt o (Reader.skipTo target) bytes () := by
  intro rest
  simp [Reader.skipTo, ← hb]

theorem timesAfter {r : Reader α} {chunks : List Bytes} {as : List α}
    (h : List.Forall₂ (fun bs a => ∀ o, ReadsAt o r bs a) chunks as) (done : List α) :
    ReadsAt o (Reader.timesAfter r as.length done) chunks.flatten (done.reverse ++ as) := by
  induction h generalizing o done with
  | nil => rw [List.append_nil]; exact pure _
  | @cons bs a chunks as hr _ ih =>
    have rest := ih (o := o + bs.length) (a :: done)
    rw [List.reverse_cons, List.append_assoc] at rest
    exact bind (hr o) rest

theorem times {r : Reader α} {chunks : List Bytes} {as : List α}
    (h : List.Forall₂ (fun bs a => ∀ o, ReadsAt o r bs a) chunks as) :
    ReadsAt o (Reader.times as.length r) chunks.flatten as :=
  timesAfter h []

theorem counted {r : Reader α} {chunks : List Bytes} {as : List α}
    (h : List.Forall₂ (fun bs a => ∀ o, ReadsAt o r bs a) chunks as) (fits : as.length < 65536) :
    ReadsAt o (Reader.counted r) (Bytes.be 2 as.length ++ chunks.flatten) as := by
  refine bind (u16 as.length fits) ?_
  show ReadsAt _ (Reader.times (UInt16.ofNat as.length).toNat r) _ _
  rw [UInt16.toNat_ofNat_of_lt' fits]
  exact times h

theorem countedMap {r : Reader α} {store : α → Bytes} {as : List α}
    (h : ∀ a ∈ as, ∀ o, ReadsAt o r (store a) a) (fits : as.length < 65536) :
    ReadsAt o (Reader.counted r) (Bytes.be 2 as.length ++ as.flatMap store) as := by
  rw [List.flatMap_def]
  exact counted (List.forall₂_map_left_iff.2 (List.forall₂_same.2 h)) fits

theorem after {r : Reader α} {k : α → Reader β} {bs cs : Bytes} {a : α} {b : β} {c : Cursor}
    (hr : ReadsAt o r bs a) (run : (r >>= k) ⟨o, bs ++ cs⟩ = .ok (b, c)) :
    k a ⟨o + bs.length, cs⟩ = .ok (b, c) := by
  obtain ⟨⟨a', d⟩, first, run⟩ := bind_ok_iff.1 run
  rw [hr cs] at first
  cases first
  exact run

theorem all {r : Reader α} {bs : Bytes} {a : α} (h : ReadsAt o r bs a) : ReadsAll o r bs a := by
  have read := h []
  rwa [List.append_nil] at read

end ReadsAt

namespace ReadsAll

variable {α β : Type} {o : Nat}

theorem bind {r : Reader α} {k : α → Reader β} {bs cs : Bytes} {a : α} {b : β}
    (hr : ReadsAt o r bs a) (hk : ReadsAll (o + bs.length) (k a) cs b) :
    ReadsAll o (r >>= k) (bs ++ cs) b := by
  show (r ⟨o, bs ++ cs⟩ >>= fun p => k p.1 p.2) = _
  rw [hr cs]
  show k a ⟨o + bs.length, cs⟩ = _
  rw [hk, List.length_append, Nat.add_assoc]

theorem bind_remaining {k : Nat → Reader β} {b : β} (hk : ReadsAll o (k 0) [] b) :
    ReadsAll o (Reader.remaining >>= k) [] b := hk

theorem runOn {r : Reader α} {bytes : Bytes} {a : α} (h : ReadsAll 0 r bytes a) :
    r.runOn bytes = .ok a := by
  show (r (Cursor.start bytes) >>= fun p => Except.ok p.1) = _
  rw [Cursor.start, h]
  rfl

end ReadsAll

namespace Yields

variable {α β : Type}

theorem mono {r : Reader α} {P Q : α → Prop} (h : Yields r P) (sub : ∀ a, P a → Q a) :
    Yields r Q := fun c a c' run => sub a (h c a c' run)

theorem all {ι : Sort*} {r : Reader α} {P : ι → α → Prop} (h : ∀ i, Yields r (P i)) :
    Yields r fun a => ∀ i, P i a := fun c a c' run i => h i c a c' run

theorem trivial (r : Reader α) : Yields r fun _ => True := fun _ _ _ _ => True.intro

theorem pure {a : α} {P : α → Prop} (h : P a) : Yields (Pure.pure a : Reader α) P := by
  intro c b c' run
  cases run
  exact h

theorem bind {r : Reader α} {k : α → Reader β} {P : α → Prop} {Q : β → Prop}
    (hr : Yields r P) (hk : ∀ a, P a → Yields (k a) Q) : Yields (r >>= k) Q := by
  intro c b c' run
  obtain ⟨⟨a, d⟩, first, second⟩ := bind_ok_iff.1 run
  exact hk a (hr c a d first) d b c' second

theorem map {r : Reader α} {f : α → β} {P : α → Prop} {Q : β → Prop} (hr : Yields r P)
    (hf : ∀ a, P a → Q (f a)) : Yields (f <$> r) Q := by
  intro c b c' run
  obtain ⟨⟨a, d⟩, first, second⟩ := bind_ok_iff.1 (show (r c >>= fun p => Except.ok (f p.1, p.2)) =
    .ok (b, c') from run)
  cases second
  exact hf a (hr c a _ first)

theorem lift {x : Except FormatError α} {P : α → Prop} (h : ∀ a, x = .ok a → P a) :
    Yields (liftM x : Reader α) P := by
  intro c a c' run
  cases x with
  | error e => cases run
  | ok a' =>
    cases run
    exact h _ rfl

theorem mapM_lift (f : α → Except FormatError β) (as : List α) :
    Yields (as.mapM fun a => (liftM (f a) : Reader β)) fun bs =>
      List.Forall₂ (fun a b => f a = .ok b) as bs := by
  induction as with
  | nil =>
    rw [List.mapM_nil]
    exact pure .nil
  | cons a as ih =>
    rw [List.mapM_cons]
    refine bind (lift fun b h => h) fun b hb => bind ih fun bs hbs => pure ?_
    exact .cons hb hbs

theorem throw {e : FormatError} {P : α → Prop} : Yields (throw e : Reader α) P := by
  intro c a c' run
  cases run

theorem ite {p : Prop} [Decidable p] {r r' : Reader α} {P : α → Prop} (h : p → Yields r P)
    (h' : ¬ p → Yields r' P) : Yields (if p then r else r') P := by
  split
  · exact h ‹_›
  · exact h' ‹_›

theorem timesAfter {r : Reader α} {P : α → Prop} (h : Yields r P) (n : Nat) (done : List α)
    (hd : ∀ a ∈ done, P a) :
    Yields (Reader.timesAfter r n done) fun as =>
      as.length = done.length + n ∧ ∀ a ∈ as, P a := by
  induction n generalizing done with
  | zero => exact pure ⟨by simp, by simpa using hd⟩
  | succ n ih =>
    refine bind h fun a ha => ?_
    refine mono (ih (a :: done) ?_) fun as has => ⟨by simp at has; omega, has.2⟩
    intro b hb
    rcases List.mem_cons.1 hb with rfl | hb
    · exact ha
    · exact hd b hb

theorem times {r : Reader α} {P : α → Prop} (h : Yields r P) (n : Nat) :
    Yields (Reader.times n r) fun as => as.length = n ∧ ∀ a ∈ as, P a :=
  mono (timesAfter h n [] (by simp)) fun as has => ⟨by simpa using has.1, has.2⟩

theorem counted {r : Reader α} {P : α → Prop} (h : Yields r P) :
    Yields (Reader.counted r) fun as => as.length < 65536 ∧ ∀ a ∈ as, P a :=
  bind (trivial Reader.u16) fun n _ =>
    mono (times h n.toNat) fun as has => ⟨by have := n.toNat_lt; omega, has.2⟩

theorem take (n : Nat) : Yields (Reader.take n) fun bytes => bytes.length = n := by
  intro c bytes c' run
  simp only [Reader.take] at run
  split at run
  · cases run
    assumption
  · cases run

theorem runOn {r : Reader α} {P : α → Prop} (h : Yields r P) {bytes : Bytes} {a : α}
    (run : r.runOn bytes = .ok a) : P a := by
  obtain ⟨⟨b, c⟩, first, second⟩ := bind_ok_iff.1 (show (r (Cursor.start bytes) >>=
    fun p => Except.ok p.1) = .ok a from run)
  cases second
  exact h _ _ _ first

end Yields

def Advances {α : Type} (r : Reader α) : Prop :=
  ∀ c a c', r c = .ok (a, c') →
    c.offset ≤ c'.offset ∧ c'.offset + c'.rest.length = c.offset + c.rest.length

namespace Advances

variable {α β : Type}

theorem pure (a : α) : Advances (Pure.pure a : Reader α) := by
  intro c b c' run
  cases run
  exact ⟨Nat.le_refl _, rfl⟩

theorem bind {r : Reader α} {k : α → Reader β} (hr : Advances r) (hk : ∀ a, Advances (k a)) :
    Advances (r >>= k) := by
  intro c b c' run
  obtain ⟨⟨a, d⟩, first, second⟩ := bind_ok_iff.1 run
  obtain ⟨le, same⟩ := hr c a d first
  obtain ⟨le', same'⟩ := hk a d b c' second
  exact ⟨Nat.le_trans le le', same'.trans same⟩

theorem lift (x : Except FormatError α) : Advances (liftM x : Reader α) := by
  intro c a c' run
  cases x with
  | error e => cases run
  | ok a' =>
    cases run
    exact ⟨Nat.le_refl _, rfl⟩

theorem throw (e : FormatError) : Advances (MonadExcept.throw e : Reader α) := by
  intro c a c' run
  cases run

theorem ite {p : Prop} [Decidable p] {r r' : Reader α} (h : Advances r) (h' : Advances r') :
    Advances (if p then r else r') := by
  split
  · exact h
  · exact h'

theorem take (n : Nat) : Advances (Reader.take n) := by
  intro c bytes c' run
  simp only [Reader.take, List.length_take] at run
  split at run
  · cases run
    simp only [List.length_drop]
    omega
  · cases run

theorem skipTo (target : Nat) : Advances (Reader.skipTo target) := by
  intro c bytes c' run
  simp only [Reader.skipTo, List.length_take] at run
  split at run
  · cases run
    simp only [List.length_drop]
    omega
  · cases run

theorem u8 : Advances Reader.u8 := by
  intro c b c' run
  obtain ⟨offset, rest⟩ := c
  cases rest with
  | nil => cases run
  | cons b rest =>
    cases run
    simp only [List.length_cons]
    omega

theorem word (width : Nat) : Advances (Reader.word width) := bind (take width) fun _ => pure _

theorem u16 : Advances Reader.u16 := bind (word 2) fun _ => pure _

theorem u32 : Advances Reader.u32 := bind (word 4) fun _ => pure _

theorem i8 : Advances Reader.i8 := bind u8 fun _ => pure _

theorem i16 : Advances Reader.i16 := bind u16 fun _ => pure _

theorem i32 : Advances Reader.i32 := bind u32 fun _ => pure _

theorem times {r : Reader α} (h : Advances r) (n : Nat) : Advances (Reader.times n r) := by
  have after : ∀ n done, Advances (Reader.timesAfter r n done) := by
    intro n
    induction n with
    | zero => exact fun done => pure _
    | succ n ih => exact fun done => bind h fun a => ih (a :: done)
  exact after n []

end Advances

end ClassWeave
