import Mathlib.Data.List.Forall2
import Mathlib.Tactic.Common
import ClassWeave.Pool
import ClassWeave.Proofs.Growth
import ClassWeave.Proofs.Indexed
import ClassWeave.Proofs.Reading
import ClassWeave.Proofs.Text.ModifiedUtf8

/-!
# The constant pool as a growing table

A well-formed pool is an empty slot followed by constants, each with the slots it takes. Interning
keeps a pool well formed and answers with an index that leads back to the interned constant, then
and in every pool that extends it. A stored pool reads back slot for slot.
-/

set_option autoImplicit false

namespace ClassWeave

theorem Char.toNat_injective {c d : Char} (h : c.toNat = d.toNat) : c = d := by
  rw [← Char.ofNat_toNat c, h, Char.ofNat_toNat]

theorem Bytes.ofInt32_injective {v w : Int32} (h : Bytes.ofInt32 v = Bytes.ofInt32 w) : v = w :=
  congrArg UInt32.toInt32 (UInt32.toNat_inj.1 h)

theorem Bytes.ofInt64_injective {v w : Int64} (h : Bytes.ofInt64 v = Bytes.ofInt64 w) : v = w :=
  congrArg UInt64.toInt64 (UInt64.toNat_inj.1 h)

namespace Constant

theorem key_injective {c d : Constant} (h : c.key = d.key) : c = d := by
  obtain ⟨ht, hp⟩ := List.cons_eq_cons.1 h
  cases c <;> cases d <;> cases ht
  case utf8.utf8 =>
    have same := List.map_injective_iff.2 (fun _ _ => Char.toNat_injective) hp
    rw [String.toList_inj.1 same]
  case integer.integer => rw [Bytes.ofInt32_injective (List.singleton_inj.1 hp)]
  case long.long => rw [Bytes.ofInt64_injective (List.singleton_inj.1 hp)]
  all_goals
    simpa [payload, UInt8.toNat_inj, UInt16.toNat_inj, UInt32.toNat_inj, UInt64.toNat_inj] using hp

def Short : Constant → Prop
  | .utf8 text => (ModifiedUtf8.encode text).length < 65536
  | _ => True

theorem readsAt_readPair {o : Nat} (make : UInt16 → UInt16 → Constant) (i j : UInt16) :
    ReadsAt o (readPair make) (Bytes.be 2 i.toNat ++ Bytes.be 2 j.toNat) (make i j) :=
  .bind (.u16_toNat i) (.bind_last (.u16_toNat j) (.pure _))

theorem readsAt_read {o : Nat} (index : UInt16) {c : Constant} (short : c.Short) :
    ReadsAt o (read index) c.encode c := by
  cases c with
  | utf8 text =>
    refine .bind (.u8 1) (.bind (.u16 _ short) (.bind_last (a := ModifiedUtf8.encode text) ?_ ?_))
    · rw [UInt16.toNat_ofNat_of_lt' short]
      exact .take _
    · simp only [ModifiedUtf8.decode?_encode]
      exact .pure _
  | integer v => exact .bind (.u8 3) (.bind_last (.i32 v) (.pure _))
  | float bits => exact .bind (.u8 4) (.bind_last (.u32_toNat bits) (.pure _))
  | long v => exact .bind (.u8 5) (.bind_last (.i64 v) (.pure _))
  | double bits => exact .bind (.u8 6) (.bind_last (.u64_toNat bits) (.pure _))
  | type i => exact .bind (.u8 7) (.bind_last (.u16_toNat i) (.pure _))
  | string i => exact .bind (.u8 8) (.bind_last (.u16_toNat i) (.pure _))
  | field i j => exact .bind (.u8 9) (readsAt_readPair _ i j)
  | method i j => exact .bind (.u8 10) (readsAt_readPair _ i j)
  | interfaceMethod i j => exact .bind (.u8 11) (readsAt_readPair _ i j)
  | nameAndType i j => exact .bind (.u8 12) (readsAt_readPair _ i j)
  | methodHandle kind i =>
    exact .bind (.u8 15) (.bind (.u8 kind) (.bind_last (.u16_toNat i) (.pure _)))
  | methodType i => exact .bind (.u8 16) (.bind_last (.u16_toNat i) (.pure _))
  | dynamic i j => exact .bind (.u8 17) (readsAt_readPair _ i j)
  | callSite i j => exact .bind (.u8 18) (readsAt_readPair _ i j)
  | moduleName i => exact .bind (.u8 19) (.bind_last (.u16_toNat i) (.pure _))
  | packageName i => exact .bind (.u8 20) (.bind_last (.u16_toNat i) (.pure _))

def cells (c : Constant) : List (Option Constant) :=
  if c.isWide then [some c, none] else [some c]

theorem length_cells (c : Constant) : c.cells.length = Pool.slots c := by
  unfold cells Pool.slots
  split <;> rfl

theorem length_cells_pos (c : Constant) : 1 ≤ c.cells.length := by
  rw [length_cells, Pool.slots]
  split <;> decide

theorem length_le_cells (cs : List Constant) : cs.length ≤ (cs.flatMap cells).length := by
  induction cs with
  | nil => exact Nat.le_refl _
  | cons c cs ih =>
    have taken := c.length_cells_pos
    rw [List.flatMap_cons, List.length_append, List.length_cons]
    omega

theorem mem_cells {c d : Constant} : some d ∈ c.cells ↔ d = c := by
  unfold cells
  split <;> simp

end Constant

namespace Pool

theorem toList_append (p : Pool) (c : Constant) : (p.append c).toList = p.toList ++ c.cells := by
  unfold append Constant.cells
  split <;> simp

structure WellFormed (limits : Limits) (p : Pool) : Prop where
  slots : ∃ cs : List Constant, p.toList = none :: cs.flatMap Constant.cells
  size_le : p.toList.length ≤ 65535
  texts : ∀ text, some (.utf8 text) ∈ p.toList → limits.text text

instance growing : Growing Pool where
  Within := WellFormed
  Extends := Indexed.Grown
  refl := Indexed.Grown.refl
  trans _ _ _ := Indexed.Grown.trans

variable {limits : Limits}

theorem wellFormed_empty : WellFormed limits empty where
  slots := ⟨[], rfl⟩
  size_le := by decide
  texts text mem := by simp [empty] at mem

theorem wellFormed_append {p : Pool} {c : Constant} (hp : WellFormed limits p)
    (fits : p.toList.length + slots c ≤ 65535) (hc : ∀ text, c = .utf8 text → limits.text text) :
    WellFormed limits (p.append c) := by
  obtain ⟨cs, hcs⟩ := hp.slots
  refine ⟨⟨cs ++ [c], ?_⟩, ?_, fun text mem => ?_⟩
  · rw [toList_append, hcs]
    simp
  · rw [toList_append, List.length_append, Constant.length_cells]
    exact fits
  · rw [toList_append, List.mem_append] at mem
    rcases mem with mem | mem
    · exact hp.texts text mem
    · exact hc text (Constant.mem_cells.1 mem).symm

theorem get_eq_ok {p : Pool} {i : UInt16} {c : Constant} :
    p.get i = .ok c ↔ p.get? i.toNat = some (some c) := by
  unfold get
  split
  · rename_i d found
    rw [found]
    simp
  · rename_i other
    constructor
    · intro h
      cases h
    · intro h
      exact absurd h (other c)

theorem get_of_extends {p f : Pool} (h : Extends p f) {i : UInt16} {c : Constant}
    (hp : p.get i = .ok c) : f.get i = .ok c :=
  get_eq_ok.2 (Indexed.Grown.get? h (get_eq_ok.1 hp))

theorem extends_append (p : Pool) (c : Constant) : Extends p (p.append c) := by
  show p.toList <+: (p.append c).toList
  rw [toList_append]
  exact List.prefix_append _ _

theorem get_of_find? {p : Pool} {c : Constant} {i : UInt16}
    (h : p.find? c.key = some i.toNat) : p.get i = .ok c := by
  obtain ⟨slot, found, same⟩ := Indexed.get?_of_find? h
  obtain ⟨d, rfl, hd⟩ := Option.map_eq_some_iff.1 same
  rw [get_eq_ok, found, Constant.key_injective hd]

theorem find?_append {p : Pool} {c : Constant} (absent : p.find? c.key = none) :
    (p.append c).find? c.key = some p.toList.length := by
  rw [Indexed.find?_eq] at absent ⊢
  rw [toList_append, List.findIdx?_append, absent]
  unfold Constant.cells
  split <;> simp [List.findIdx?_cons, slotKey]

theorem intern_cases (c : Constant) (p : Pool) : (intern c p).2 = p ∨
    (intern c p).2 = p.append c ∧ p.toList.length + slots c ≤ 65535 := by
  unfold intern
  split
  · exact .inl rfl
  · dsimp only
    rw [Indexed.size_eq]
    split
    · exact .inl rfl
    · exact .inr ⟨rfl, by omega⟩

theorem find?_of_intern {p q : Pool} {c : Constant} {i : UInt16} (first : p.get? 0 = some none)
    (size_le : p.toList.length ≤ 65535) (run : intern c p = (.ok i, q)) :
    i ≠ 0 ∧ q.find? c.key = some i.toNat := by
  obtain ⟨n, rfl, found, lt⟩ : ∃ n, i = UInt16.ofNat n ∧ q.find? c.key = some n ∧ n ≤ 65535 := by
    unfold intern at run
    split at run
    · rename_i n known
      cases run
      have := Indexed.lt_of_find? known
      exact ⟨n, rfl, known, by omega⟩
    · rename_i unknown
      dsimp only at run
      split at run
      · cases run
      · cases run
        rw [Indexed.size_eq]
        exact ⟨_, rfl, find?_append unknown, size_le⟩
  have cast : (UInt16.ofNat n).toNat = n := UInt16.toNat_ofNat_of_lt' (show n < 65536 by omega)
  refine ⟨fun zero => ?_, by rw [cast, found]⟩
  have kept : (intern c p).2.get? 0 = some none := by
    rcases intern_cases c p with same | ⟨more, _⟩
    · rw [same]
      exact first
    · rw [more]
      exact Indexed.Grown.get? (extends_append p c) first
  rw [run] at kept
  obtain ⟨slot, here, same⟩ := Indexed.get?_of_find? found
  rw [← cast, zero, show (0 : UInt16).toNat = 0 from rfl, kept] at here
  cases here
  cases same

/-- In whichever pools are kept, interning leads to the constant, and not through slot 0. -/
class Interning (limits : Limits) [Growing Pool] : Prop where
  grows {c : Constant} (hc : ∀ text, c = .utf8 text → limits.text text) :
    Grows limits (intern c) fun f i => i ≠ 0 ∧ f.find? c.key = some i.toNat

instance : Interning limits where
  grows {c} hc := by
    intro p r q hp run
    have step : (intern c p).2 = q := congrArg Prod.snd run
    have first : p.get? 0 = some none := by
      obtain ⟨cs, hcs⟩ := hp.slots
      rw [Indexed.get?_eq, hcs, List.getElem?_cons_zero]
    have answer : ∀ i, r = .ok i → ∀ f, Extends q f →
        i ≠ 0 ∧ f.find? c.key = some i.toNat := by
      rintro i rfl f later
      obtain ⟨ne, found⟩ := find?_of_intern first hp.size_le run
      exact ⟨ne, Indexed.Grown.find? later found⟩
    rcases intern_cases c p with same | ⟨more, fits⟩
    · cases step.symm.trans same
      exact ⟨hp, Growing.refl p, answer⟩
    · cases step.symm.trans more
      exact ⟨wellFormed_append hp fits hc, extends_append p c, answer⟩

section

variable [Growing Pool] [Interning limits]

theorem grows_intern {c : Constant} (hc : ∀ text, c = .utf8 text → limits.text text) :
    Grows limits (intern c) fun f i => i ≠ 0 ∧ f.get i = .ok c :=
  (Interning.grows hc).mono fun _ _ h => ⟨h.1, get_of_find? h.2⟩

theorem grows_intern_plain {c : Constant} (hc : ∀ text, c ≠ .utf8 text) :
    Grows limits (intern c) fun f i => i ≠ 0 ∧ f.get i = .ok c :=
  grows_intern fun text h => absurd h (hc text)

end

theorem utf8_eq_ok {p : Pool} {i : UInt16} {text : String} :
    p.utf8 i = .ok text ↔ p.get i = .ok (.utf8 text) := by
  unfold utf8
  rw [bind_ok_iff]
  constructor
  · rintro ⟨c, hc, h⟩
    cases c <;> cases h
    exact hc
  · intro h
    exact ⟨_, h, rfl⟩

theorem grows_internUtf8 [Growing Pool] [Interning limits] {text : String} (ht : limits.text text) :
    Grows limits (internUtf8 text) fun f i => i ≠ 0 ∧ f.utf8 i = .ok text := by
  refine (grows_intern fun other same => ?_).mono fun f i h => ⟨h.1, utf8_eq_ok.2 h.2⟩
  cases same
  exact ht

theorem className_eq_ok {p : Pool} {i : UInt16} {name : String} :
    p.className i = .ok name ↔ ∃ j, p.get i = .ok (.type j) ∧ p.utf8 j = .ok name := by
  unfold className
  rw [bind_ok_iff]
  constructor
  · rintro ⟨c, hc, h⟩
    cases c <;> first | exact ⟨_, hc, h⟩ | cases h
  · rintro ⟨j, hj, h⟩
    exact ⟨_, hj, h⟩

theorem grows_internClass [Growing Pool] [Interning limits] {name : String}
    (ht : limits.text name) :
    Grows limits (internClass name) fun f i => i ≠ 0 ∧ f.className i = .ok name := by
  refine .bind (grows_internUtf8 ht) fun j _ => ?_
  refine (grows_intern_plain (by nofun)).mono fun f i hi hj => ⟨hi.1, ?_⟩
  exact className_eq_ok.2 ⟨j, hi.2, hj.2⟩

theorem grows_internString [Growing Pool] [Interning limits] {text : String}
    (ht : limits.text text) :
    Grows limits (internString text) fun f i =>
      ∃ j, f.get i = .ok (.string j) ∧ f.utf8 j = .ok text := by
  refine .bind (grows_internUtf8 ht) fun j _ => ?_
  exact (grows_intern_plain (by nofun)).mono fun f i hi hj => ⟨j, hi.2, hj.2⟩

theorem nameAndType_eq_ok {p : Pool} {i : UInt16} {name desc : String} :
    p.nameAndType i = .ok (name, desc) ↔
      ∃ j k, p.get i = .ok (.nameAndType j k) ∧ p.utf8 j = .ok name ∧ p.utf8 k = .ok desc := by
  unfold nameAndType
  rw [bind_ok_iff]
  constructor
  · rintro ⟨c, hc, h⟩
    cases c <;> try cases h
    case nameAndType j k =>
      obtain ⟨n, hn, h⟩ := bind_ok_iff.1 h
      obtain ⟨d, hd, h⟩ := bind_ok_iff.1 h
      cases h
      exact ⟨j, k, hc, hn, hd⟩
  · rintro ⟨j, k, hc, hn, hd⟩
    refine ⟨_, hc, ?_⟩
    simp only [hn, hd]
    rfl

theorem grows_internNameAndType [Growing Pool] [Interning limits] {name desc : String}
    (hn : limits.text name) (hd : limits.text desc) :
    Grows limits (internNameAndType name desc) fun f i => f.nameAndType i = .ok (name, desc) := by
  refine .bind (grows_internUtf8 hn) fun j _ => ?_
  refine .bind (grows_internUtf8 hd) fun k _ => ?_
  refine (grows_intern_plain (by nofun)).mono fun f i hi hk hj => ?_
  exact nameAndType_eq_ok.2 ⟨j, k, hi.2, hj.2, hk.2⟩

theorem member_eq_ok {p : Pool} {i : UInt16} {kind : MemberKind} {m : MemberRef} :
    p.member i = .ok (kind, m) ↔
      ∃ j k, p.get i = .ok (match kind with
          | .field => .field j k
          | .method => .method j k
          | .interfaceMethod => .interfaceMethod j k) ∧
        p.nameAndType k = .ok (m.name, m.desc) ∧ p.className j = .ok m.owner := by
  unfold member
  rw [bind_ok_iff]
  constructor
  · rintro ⟨c, hc, h⟩
    cases c <;> obtain ⟨⟨found, j, k⟩, hf, h⟩ := bind_ok_iff.1 h <;> cases hf
    all_goals
      obtain ⟨⟨name, desc⟩, hn, h⟩ := bind_ok_iff.1 h
      obtain ⟨owner, ho, h⟩ := bind_ok_iff.1 h
      cases h
      exact ⟨_, _, hc, hn, ho⟩
  · rintro ⟨j, k, hc, hn, ho⟩
    refine ⟨_, hc, ?_⟩
    cases kind <;> exact bind_ok_iff.2 ⟨_, rfl, bind_ok_iff.2 ⟨_, hn, bind_ok_iff.2 ⟨_, ho, rfl⟩⟩⟩

end Pool

def MemberRef.Within (limits : Limits) (m : MemberRef) : Prop :=
  limits.text m.owner ∧ limits.text m.name ∧ limits.text m.desc

def Handle.Plain (h : Handle) : Prop := h.isField = true → h.ofInterface = false

namespace Pool

variable {limits : Limits}

theorem grows_internField [Growing Pool] [Interning limits] {m : MemberRef} (hm : m.Within limits) :
    Grows limits (internField m) fun f i => f.member i = .ok (.field, m) := by
  obtain ⟨ho, hn, hd⟩ := hm
  refine .bind (grows_internClass ho) fun j _ => ?_
  refine .bind (grows_internNameAndType hn hd) fun k _ => ?_
  refine (grows_intern_plain (by nofun)).mono fun f i hi hk hj => ?_
  exact member_eq_ok.2 ⟨j, k, hi.2, hk, hj.2⟩

theorem grows_internMethod [Growing Pool] [Interning limits] {m : MemberRef}
    (hm : m.Within limits) (ofInterface : Bool) :
    Grows limits (internMethod m ofInterface) fun f i =>
      f.member i = .ok (if ofInterface then .interfaceMethod else .method, m) := by
  obtain ⟨ho, hn, hd⟩ := hm
  refine .bind (grows_internClass ho) fun j _ => ?_
  refine .bind (grows_internNameAndType hn hd) fun k _ => ?_
  cases ofInterface with
  | false =>
    refine (grows_intern_plain (by nofun)).mono fun f i hi hk hj => ?_
    exact member_eq_ok.2 ⟨j, k, hi.2, hk, hj.2⟩
  | true =>
    refine (grows_intern_plain (by nofun)).mono fun f i hi hk hj => ?_
    exact member_eq_ok.2 ⟨j, k, hi.2, hk, hj.2⟩

theorem handle_eq_ok {p : Pool} {i : UInt16} {h : Handle} :
    p.handle i = .ok h ↔ ∃ j kind, p.get i = .ok (.methodHandle h.kind j) ∧
      p.member j = .ok (kind, h.member) ∧ h.ofInterface = (kind == .interfaceMethod) := by
  unfold handle
  rw [bind_ok_iff]
  constructor
  · rintro ⟨c, hc, found⟩
    cases c <;> try cases found
    case methodHandle tag j =>
      obtain ⟨⟨kind, member⟩, hm, found⟩ := bind_ok_iff.1 found
      cases found
      exact ⟨j, kind, hc, hm, rfl⟩
  · rintro ⟨j, kind, hc, hm, same⟩
    refine ⟨_, hc, bind_ok_iff.2 ⟨_, hm, ?_⟩⟩
    show Except.ok (Handle.mk h.kind h.member (kind == .interfaceMethod)) = _
    rw [← same]

theorem grows_internHandle [Growing Pool] [Interning limits] {h : Handle}
    (hm : h.member.Within limits) :
    Grows limits (internHandle h) fun f i => h.Plain →
      f.handle i = .ok h ∧ ∃ j, f.get i = .ok (.methodHandle h.kind j) := by
  have stored : ∀ step : Growth UInt16,
      Grows limits step (fun f j => h.Plain → ∃ kind, f.member j = .ok (kind, h.member) ∧
        h.ofInterface = (kind == .interfaceMethod)) →
      Grows limits (step >>= fun j => intern (.methodHandle h.kind j)) fun f i => h.Plain →
        f.handle i = .ok h ∧ ∃ j, f.get i = .ok (.methodHandle h.kind j) := by
    intro step hstep
    refine .bind hstep fun j _ => ?_
    refine (grows_intern_plain (by nofun)).mono fun f i hi hj plain => ?_
    obtain ⟨kind, hk, same⟩ := hj plain
    exact ⟨handle_eq_ok.2 ⟨j, kind, hi.2, hk, same⟩, j, hi.2⟩
  unfold internHandle
  split
  · rename_i field
    refine stored _ ((grows_internField hm).mono fun f j hj plain => ⟨_, hj, ?_⟩)
    rw [plain field]
    rfl
  · refine stored _ ((grows_internMethod hm h.ofInterface).mono fun f j hj _ => ⟨_, hj, ?_⟩)
    cases h.ofInterface <;> rfl

theorem toList_foldl_append (cs : List Constant) (p : Pool) :
    (cs.foldl append p).toList = p.toList ++ cs.flatMap Constant.cells := by
  induction cs generalizing p with
  | nil => simp
  | cons c cs ih => rw [List.foldl_cons, ih, toList_append, List.flatMap_cons, List.append_assoc]

theorem readsAt_readEntries {cs : List Constant} (short : ∀ c ∈ cs, c.Short) {o count fuel : Nat}
    {p : Pool} (hfuel : cs.length ≤ fuel)
    (hcount : p.toList.length + (cs.flatMap Constant.cells).length = count) :
    ReadsAt o (readEntries count fuel p) (cs.flatMap Constant.encode) (cs.foldl append p) := by
  induction cs generalizing o fuel p with
  | nil =>
    cases fuel with
    | zero => exact .pure p
    | succ fuel =>
      rw [readEntries, if_neg (by simp at hcount ⊢; omega)]
      exact .pure p
  | cons c cs ih =>
    obtain ⟨fuel, rfl⟩ : ∃ n, fuel = n + 1 := ⟨fuel - 1, by simp at hfuel; omega⟩
    have taken := c.length_cells_pos
    rw [List.flatMap_cons, List.length_append] at hcount
    rw [readEntries, if_pos (by rw [Indexed.size_eq]; omega), List.flatMap_cons]
    refine .bind (Constant.readsAt_read _ (short c (List.mem_cons_self ..))) ?_
    refine ih (fun d hd => short d (List.mem_cons_of_mem c hd)) (by simpa using hfuel) ?_
    rw [toList_append, List.length_append]
    omega

theorem encode_eq {p : Pool} {cs : List Constant}
    (hcs : p.toList = none :: cs.flatMap Constant.cells) :
    p.encode = Bytes.be 2 p.size ++ cs.flatMap Constant.encode := by
  unfold encode
  rw [hcs, List.flatMap_cons, List.nil_append, List.flatMap_assoc]
  congr 2
  funext c
  unfold Constant.cells
  split <;> simp

theorem readsAt_read {limits : Limits} {o : Nat} {p : Pool} (hp : WellFormed limits p)
    (short : ∀ c, some c ∈ p.toList → c.Short) : ReadsAt o read p.encode p := by
  obtain ⟨cs, hcs⟩ := hp.slots
  have size_le := hp.size_le
  have short : ∀ c ∈ cs, c.Short := by
    intro c hc
    apply short
    rw [hcs]
    exact List.mem_cons_of_mem _ (List.mem_flatMap.2 ⟨c, hc, Constant.mem_cells.2 rfl⟩)
  have whole : cs.foldl append empty = p := by
    apply Indexed.ext_toList
    rw [toList_foldl_append, hcs]
    rfl
  have fits : p.size < 65536 := by
    rw [Indexed.size_eq]
    omega
  have count : empty.toList.length + (cs.flatMap Constant.cells).length = p.size := by
    rw [Indexed.size_eq, hcs, List.length_cons, Nat.add_comm]
    rfl
  have room : cs.length ≤ p.size := by
    have := Constant.length_le_cells cs
    omega
  rw [encode_eq hcs]
  refine .bind (.u16 p.size fits) ?_
  rw [UInt16.toNat_ofNat_of_lt' fits]
  have entries := readsAt_readEntries short (o := o + (Bytes.be 2 p.size).length) room count
  rw [whole] at entries
  refine .bind_last entries ?_
  rw [if_neg (fun h => h rfl)]
  exact .pure p

theorem yields_readEntries (count fuel : Nat) {p : Pool}
    (slots : ∃ cs : List Constant, p.toList = none :: cs.flatMap Constant.cells) :
    Yields (readEntries count fuel p) fun q =>
      ∃ cs : List Constant, q.toList = none :: cs.flatMap Constant.cells := by
  induction fuel generalizing p with
  | zero => exact .pure slots
  | succ fuel ih =>
    rw [readEntries]
    split
    · refine .bind (.trivial _) fun c _ => ih ?_
      obtain ⟨cs, hcs⟩ := slots
      refine ⟨cs ++ [c], ?_⟩
      rw [toList_append, hcs]
      simp
    · exact .pure slots

theorem yields_read : Yields read (WellFormed Limits.none) := by
  refine .bind (.trivial Reader.u16) fun count _ => ?_
  refine .bind (yields_readEntries count.toNat _ ⟨[], rfl⟩) fun q slots => ?_
  split
  · exact .bind .throw fun _ (h : False) => h.elim
  · rename_i whole
    have same : q.toList.length = count.toNat := by simpa using whole
    have small := count.toNat_lt
    exact .pure ⟨slots, by omega, fun _ _ => True.intro⟩

theorem WellFormed.restrict {limits other : Limits} {p : Pool} (hp : WellFormed limits p)
    (texts : ∀ text, some (.utf8 text) ∈ p.toList → other.text text) : WellFormed other p :=
  ⟨hp.slots, hp.size_le, texts⟩

section

variable {p f : Pool} (h : Extends p f) {i : UInt16}

include h

theorem utf8_of_extends {text : String} (hp : p.utf8 i = .ok text) : f.utf8 i = .ok text :=
  utf8_eq_ok.2 (get_of_extends h (utf8_eq_ok.1 hp))

theorem nameAndType_of_extends {name desc : String} (hp : p.nameAndType i = .ok (name, desc)) :
    f.nameAndType i = .ok (name, desc) := by
  obtain ⟨j, k, hi, hj, hk⟩ := nameAndType_eq_ok.1 hp
  exact nameAndType_eq_ok.2 ⟨j, k, get_of_extends h hi, utf8_of_extends h hj, utf8_of_extends h hk⟩

theorem handle_of_extends {handle : Handle} (hp : p.handle i = .ok handle) :
    f.handle i = .ok handle := by
  obtain ⟨j, kind, hi, hm, same⟩ := handle_eq_ok.1 hp
  obtain ⟨k, l, hj, hl, hk⟩ := member_eq_ok.1 hm
  obtain ⟨n, hn, name⟩ := className_eq_ok.1 hk
  have owner := className_eq_ok.2 ⟨n, get_of_extends h hn, utf8_of_extends h name⟩
  have member := member_eq_ok.2 ⟨k, l, get_of_extends h hj, nameAndType_of_extends h hl, owner⟩
  exact handle_eq_ok.2 ⟨j, kind, get_of_extends h hi, member, same⟩

end

theorem mem_of_get {p : Pool} {i : UInt16} {c : Constant} (h : p.get i = .ok c) :
    some c ∈ p.toList := by
  rw [get_eq_ok, Indexed.get?_eq] at h
  exact List.mem_of_getElem? h

theorem text_of_utf8 {p : Pool} (hp : WellFormed limits p) {i : UInt16} {text : String}
    (h : p.utf8 i = .ok text) : limits.text text :=
  hp.texts text (mem_of_get (utf8_eq_ok.1 h))

theorem text_of_className {p : Pool} (hp : WellFormed limits p) {i : UInt16} {name : String}
    (h : p.className i = .ok name) : limits.text name := by
  obtain ⟨j, _, hj⟩ := className_eq_ok.1 h
  exact text_of_utf8 hp hj

theorem texts_of_nameAndType {p : Pool} (hp : WellFormed limits p) {i : UInt16}
    {name desc : String} (h : p.nameAndType i = .ok (name, desc)) :
    limits.text name ∧ limits.text desc := by
  obtain ⟨j, k, _, hj, hk⟩ := nameAndType_eq_ok.1 h
  exact ⟨text_of_utf8 hp hj, text_of_utf8 hp hk⟩

theorem within_of_member {p : Pool} (hp : WellFormed limits p) {i : UInt16} {kind : MemberKind}
    {m : MemberRef} (h : p.member i = .ok (kind, m)) : m.Within limits := by
  obtain ⟨j, k, _, hn, ho⟩ := member_eq_ok.1 h
  exact ⟨text_of_className hp ho, texts_of_nameAndType hp hn⟩

def PlainHandles (p : Pool) : Prop :=
  ∀ kind reference owner nameAndType, some (.methodHandle kind reference) ∈ p.toList → kind ≤ 4 →
    p.get reference ≠ .ok (.interfaceMethod owner nameAndType)

theorem plain_of_handle {p : Pool} (plain : p.PlainHandles) {i : UInt16} {h : Handle}
    (hh : p.handle i = .ok h) : h.Plain := by
  intro field
  obtain ⟨j, kind, hj, hm, same⟩ := handle_eq_ok.1 hh
  obtain ⟨owner, nt, hget, _⟩ := member_eq_ok.1 hm
  rw [same]
  cases kind with
  | field => rfl
  | method => rfl
  | interfaceMethod =>
    exact absurd hget
      (plain h.kind j owner nt (mem_of_get hj) (by simpa [Handle.isField] using field))

theorem within_of_handle {p : Pool} (hp : WellFormed limits p) {i : UInt16} {h : Handle}
    (hh : p.handle i = .ok h) : h.member.Within limits := by
  obtain ⟨j, kind, _, hm, _⟩ := handle_eq_ok.1 hh
  exact within_of_member hp hm

end Pool

end ClassWeave
