import Mathlib.Data.List.Forall2
import Mathlib.Tactic.Common
import ClassWeave.Bootstraps
import ClassWeave.Proofs.Pool

/-!
# The pool and the bootstrap table together

What interning a constant, a bootstrap method or a call site answers with resolves to the same
value in every later pair of tables. A dynamic constant may only hold others up to a depth, and its
arguments have to fit their count.
-/

set_option autoImplicit false

namespace ClassWeave

mutual

def Loadable.Within (limits : Limits) : Loadable → Prop
  | .int _ | .float _ | .long _ | .double _ => True
  | .string text | .type text | .methodType text => limits.text text
  | .handle h => h.member.Within limits
  | .dynamic name desc h args =>
    limits.text name ∧ limits.text desc ∧ h.member.Within limits ∧ limits.arity args.length ∧
      Loadable.AllWithin limits args

def Loadable.AllWithin (limits : Limits) : List Loadable → Prop
  | [] => True
  | x :: xs => Loadable.Within limits x ∧ Loadable.AllWithin limits xs

end

mutual

/-- A reader resolves the constant when `levels` dynamic constants may nest. -/
def Loadable.Resolvable : Nat → Loadable → Prop
  | _, .handle h => h.Plain
  | 0, .dynamic _ _ _ _ => False
  | levels + 1, .dynamic _ _ h args => h.Plain ∧ Loadable.AllResolvable levels args
  | _, _ => True

def Loadable.AllResolvable : Nat → List Loadable → Prop
  | _, [] => True
  | levels, x :: xs => Loadable.Resolvable levels x ∧ Loadable.AllResolvable levels xs

end

theorem Loadable.allWithin_iff {limits : Limits} {xs : List Loadable} :
    AllWithin limits xs ↔ ∀ x ∈ xs, x.Within limits := by
  induction xs with
  | nil => simp [AllWithin]
  | cons x xs ih => simp [AllWithin, ih]

theorem Loadable.allResolvable_iff {levels : Nat} {xs : List Loadable} :
    AllResolvable levels xs ↔ ∀ x ∈ xs, x.Resolvable levels := by
  induction xs with
  | nil => simp [AllResolvable]
  | cons x xs ih => simp [AllResolvable, ih]

mutual

theorem Loadable.within_none (v : Loadable) : v.Within Limits.none := by
  cases v with
  | dynamic name desc h args =>
    rw [Within]
    exact ⟨trivial, trivial, ⟨trivial, trivial, trivial⟩, trivial, allWithin_none args⟩
  | handle h =>
    rw [Within]
    exact ⟨trivial, trivial, trivial⟩
  | _ => simp [Within, Limits.none]

theorem Loadable.allWithin_none (vs : List Loadable) : AllWithin Limits.none vs := by
  cases vs with
  | nil => simp [AllWithin]
  | cons v vs =>
    rw [AllWithin]
    exact ⟨within_none v, allWithin_none vs⟩

end

structure Bootstrap.Within (limits : Limits) (b : Bootstrap) : Prop where
  handle : b.handle.member.Within limits
  arity : limits.arity b.args.length
  args : ∀ x ∈ b.args, x.Within limits

structure Bootstrap.Resolvable (levels : Nat) (b : Bootstrap) : Prop where
  handle : b.handle.Plain
  args : ∀ x ∈ b.args, x.Resolvable levels

namespace BootstrapEntry

theorem key_injective {d e : BootstrapEntry} (h : d.key = e.key) : d = e := by
  obtain ⟨i, xs⟩ := d
  obtain ⟨j, ys⟩ := e
  obtain ⟨hi, hxs⟩ := List.cons_eq_cons.1 (Option.some.inj h)
  have same := List.map_injective_iff.2 (fun _ _ => UInt16.toNat_inj.1) hxs
  exact congrArg₂ BootstrapEntry.mk (UInt16.toNat_inj.1 hi) same

end BootstrapEntry

namespace BootstrapTable

structure WellFormed (limits : Limits) (t : BootstrapTable) : Prop where
  size_le : t.toList.length ≤ 65535
  arities : ∀ e ∈ t.toList, limits.arity e.args.length

end BootstrapTable

namespace Tables

structure WellFormed (limits : Limits) (t : Tables) : Prop where
  pool : t.pool.WellFormed limits
  bootstraps : t.bootstraps.WellFormed limits

structure Extended (s t : Tables) : Prop where
  pool : Extends s.pool t.pool
  bootstraps : s.bootstraps.Grown t.bootstraps

instance growing : Growing Tables where
  Within := WellFormed
  Extends := Extended
  refl s := ⟨Growing.refl s.pool, Indexed.Grown.refl s.bootstraps⟩
  trans _ _ _ h h' := ⟨Growing.trans _ _ _ h.pool h'.pool, h.bootstraps.trans h'.bootstraps⟩

variable {limits : Limits}

theorem internEntry_cases (e : BootstrapEntry) (s : Tables) : (internEntry e s).2 = s ∨
    (internEntry e s).2 = ⟨s.pool, s.bootstraps.push e⟩ ∧
      s.bootstraps.toList.length + 1 ≤ 65535 := by
  unfold internEntry
  dsimp only
  split
  · exact .inl rfl
  · rw [Indexed.size_eq]
    split
    · exact .inl rfl
    · exact .inr ⟨rfl, by omega⟩

theorem find?_push {t : BootstrapTable} {e : BootstrapEntry}
    (absent : t.find? (e.handle.toNat :: e.args.map UInt16.toNat) = none) :
    (t.push e).find? (e.handle.toNat :: e.args.map UInt16.toNat) = some t.toList.length := by
  rw [Indexed.find?_eq] at absent ⊢
  rw [Indexed.toList_push, List.findIdx?_append, absent]
  simp [BootstrapEntry.key]

theorem find?_of_internEntry {s t : Tables} {e : BootstrapEntry} {i : UInt16}
    (size_le : s.bootstraps.toList.length ≤ 65535) (run : internEntry e s = (.ok i, t)) :
    t.bootstraps.find? (e.handle.toNat :: e.args.map UInt16.toNat) = some i.toNat := by
  have cast {n : Nat} (le : n ≤ 65535) : (UInt16.ofNat n).toNat = n :=
    UInt16.toNat_ofNat_of_lt' (show n < 65536 by omega)
  unfold internEntry at run
  dsimp only at run
  split at run
  · rename_i n known
    cases run
    have := Indexed.lt_of_find? known
    rw [cast (by omega)]
    exact known
  · rename_i absent
    rw [Indexed.size_eq] at run
    split at run
    · cases run
    · cases run
      rw [cast size_le]
      exact find?_push absent

/-- In whichever tables are kept, and with them their pools, interning leads to the constant or to
the entry. -/
class Interning (limits : Limits) [Growing Pool] [Growing Tables] : Prop
    extends Pool.Interning limits where
  onPool {α : Type} {step : Pool.Growth α} {P : Pool → α → Prop} (h : Grows limits step P) :
    Grows limits (onPool step) fun f a => P f.pool a
  entry {e : BootstrapEntry} (he : limits.arity e.args.length) :
    Grows limits (internEntry e) fun f i =>
      f.bootstraps.find? (e.handle.toNat :: e.args.map UInt16.toNat) = some i.toNat

theorem wellFormed_push {t : BootstrapTable} {e : BootstrapEntry} (ht : t.WellFormed limits)
    (fits : t.toList.length + 1 ≤ 65535) (he : limits.arity e.args.length) :
    BootstrapTable.WellFormed limits (t.push e) := by
  constructor
  · rw [Indexed.toList_push, List.length_append]
    exact fits
  · intro d hd
    rw [Indexed.toList_push, List.mem_append] at hd
    rcases hd with hd | hd
    · exact ht.arities d hd
    · rw [List.mem_singleton.1 hd]
      exact he

instance : Interning limits where
  onPool h := by
    intro s r t hs run
    cases run
    obtain ⟨hp, extends_, hP⟩ := h s.pool _ _ hs.pool rfl
    refine ⟨⟨hp, hs.bootstraps⟩, ⟨extends_, Indexed.Grown.refl _⟩, fun a ha f hf => ?_⟩
    exact hP a ha f.pool hf.pool
  entry {e} he := by
    intro s r t hs run
    have step : (internEntry e s).2 = t := congrArg Prod.snd run
    have answer : ∀ i, r = .ok i → ∀ f, Extends t f →
        f.bootstraps.find? (e.handle.toNat :: e.args.map UInt16.toNat) = some i.toNat := by
      rintro i rfl f later
      exact Indexed.Grown.find? later.bootstraps
        (find?_of_internEntry hs.bootstraps.size_le run)
    rcases internEntry_cases e s with same | ⟨more, fits⟩
    · cases step.symm.trans same
      exact ⟨hs, Growing.refl s, answer⟩
    · cases step.symm.trans more
      exact ⟨⟨hs.pool, wellFormed_push hs.bootstraps fits he⟩,
        ⟨Growing.refl _, Indexed.grown_push _ _⟩, answer⟩

section

variable [Growing Pool] [Growing Tables] [Interning limits]

theorem grows_onPool {α : Type} {step : Pool.Growth α} {P : Pool → α → Prop}
    (h : Grows limits step P) : Grows limits (onPool step) fun f a => P f.pool a :=
  Interning.onPool h

theorem grows_utf8 {text : String} (ht : limits.text text) :
    Grows limits (utf8 text) fun f i => i ≠ 0 ∧ f.pool.utf8 i = .ok text :=
  grows_onPool (Pool.grows_internUtf8 ht)

theorem grows_className {name : String} (ht : limits.text name) :
    Grows limits (className name) fun f i => i ≠ 0 ∧ f.pool.className i = .ok name :=
  grows_onPool (Pool.grows_internClass ht)

theorem grows_internEntry {e : BootstrapEntry} (he : limits.arity e.args.length) :
    Grows limits (internEntry e) fun f i => f.bootstraps.get? i.toNat = some e := by
  refine (Interning.entry he).mono fun f i found => ?_
  obtain ⟨d, here, same⟩ := Indexed.get?_of_find? found
  rw [here, BootstrapEntry.key_injective same]

theorem grows_nameAndType {name desc : String} (hn : limits.text name) (hd : limits.text desc) :
    Grows limits (onPool (Pool.internNameAndType name desc)) fun f i =>
      f.pool.nameAndType i = .ok (name, desc) :=
  grows_onPool (Pool.grows_internNameAndType hn hd)

theorem grows_handle {h : Handle} (hm : h.member.Within limits) :
    Grows limits (onPool (Pool.internHandle h)) fun f i => h.Plain →
      f.pool.handle i = .ok h ∧ ∃ j, f.pool.get i = .ok (.methodHandle h.kind j) :=
  grows_onPool (Pool.grows_internHandle hm)

theorem grows_constant {c : Constant} (hc : ∀ text, c ≠ .utf8 text) :
    Grows limits (onPool (Pool.intern c)) fun f i => i ≠ 0 ∧ f.pool.get i = .ok c :=
  grows_onPool (Pool.grows_intern_plain hc)

end

open BootstrapTable (loadableWith bootstrapAt)

def Resolves (v : Loadable) (f : Tables) (i : UInt16) : Prop :=
  ∀ levels, v.Resolvable levels →
    loadableWith f.pool (bootstrapAt f.bootstraps f.pool levels) i = .ok v

theorem bootstrapAt_succ {f : Tables} {entry : UInt16} {h : Handle} {args : List Loadable}
    {levels : Nat} {k : UInt16} {is : List UInt16}
    (hentry : f.bootstraps.get? entry.toNat = some ⟨k, is⟩)
    (hk : f.pool.handle k = .ok h)
    (hargs : List.Forall₂ (fun i v => Resolves v f i) is args)
    (resolvable : ∀ x ∈ args, x.Resolvable levels) :
    bootstrapAt f.bootstraps f.pool (levels + 1) entry = .ok ⟨h, args⟩ := by
  have each := forall₂_imp_mem hargs.flip fun v hv i _ hi => hi levels (resolvable v hv)
  rw [bootstrapAt, hentry]
  exact bind_ok_iff.2 ⟨_, mapM_ok_iff.2 each.flip, bind_ok_iff.2 ⟨_, hk, rfl⟩⟩

mutual

theorem grows_internLoadable [Growing Pool] [Growing Tables] [Interning limits] (v : Loadable)
    (hv : v.Within limits) :
    Grows limits (internLoadable v) (Resolves v) := by
  cases v with
  | int v =>
    rw [internLoadable]
    refine (grows_constant (by nofun)).mono fun f i hi _ _ => ?_
    exact bind_ok_iff.2 ⟨_, hi.2, rfl⟩
  | float bits =>
    rw [internLoadable]
    refine (grows_constant (by nofun)).mono fun f i hi _ _ => ?_
    exact bind_ok_iff.2 ⟨_, hi.2, rfl⟩
  | long v =>
    rw [internLoadable]
    refine (grows_constant (by nofun)).mono fun f i hi _ _ => ?_
    exact bind_ok_iff.2 ⟨_, hi.2, rfl⟩
  | double bits =>
    rw [internLoadable]
    refine (grows_constant (by nofun)).mono fun f i hi _ _ => ?_
    exact bind_ok_iff.2 ⟨_, hi.2, rfl⟩
  | string text =>
    rw [internLoadable]
    rw [Loadable.Within] at hv
    refine (grows_onPool (Pool.grows_internString hv)).mono fun f i hi _ _ => ?_
    obtain ⟨j, hj, ht⟩ := hi
    exact bind_ok_iff.2 ⟨_, hj, bind_ok_iff.2 ⟨_, ht, rfl⟩⟩
  | type name =>
    rw [internLoadable]
    rw [Loadable.Within] at hv
    refine (grows_className hv).mono fun f i hi _ _ => ?_
    obtain ⟨j, hj, ht⟩ := Pool.className_eq_ok.1 hi.2
    exact bind_ok_iff.2 ⟨_, hj, bind_ok_iff.2 ⟨_, ht, rfl⟩⟩
  | methodType desc =>
    rw [internLoadable]
    rw [Loadable.Within] at hv
    refine .bind (grows_utf8 hv) fun j _ => ?_
    refine (grows_constant (by nofun)).mono fun f i hi hj _ _ => ?_
    exact bind_ok_iff.2 ⟨_, hi.2, bind_ok_iff.2 ⟨_, hj.2, rfl⟩⟩
  | handle h =>
    rw [internLoadable]
    rw [Loadable.Within] at hv
    refine (grows_handle hv).mono fun f i hi levels plain => ?_
    rw [Loadable.Resolvable] at plain
    obtain ⟨hh, j, hj⟩ := hi plain
    exact bind_ok_iff.2 ⟨_, hj, bind_ok_iff.2 ⟨_, hh, rfl⟩⟩
  | dynamic name desc h args =>
    rw [Loadable.Within] at hv
    obtain ⟨hn, hd, hh, arity, hargs⟩ := hv
    rw [internLoadable]
    refine .bind (grows_handle hh) fun k _ => ?_
    refine .bind (grows_internLoadables args hargs) fun is his => ?_
    obtain ⟨_, his⟩ := his
    rw [← his.length_eq] at arity
    refine .bind (grows_internEntry arity) fun entry _ => ?_
    refine .bind (grows_nameAndType hn hd) fun nt _ => ?_
    refine (grows_constant (by nofun)).mono fun f i hi hnt hentry hargs hk levels resolvable => ?_
    cases levels with
    | zero =>
      rw [Loadable.Resolvable] at resolvable
      exact resolvable.elim
    | succ levels =>
      rw [Loadable.Resolvable, Loadable.allResolvable_iff] at resolvable
      obtain ⟨plain, resolvable⟩ := resolvable
      have bootstrap := bootstrapAt_succ hentry (hk plain).1 hargs resolvable
      exact bind_ok_iff.2 ⟨_, hi.2, bind_ok_iff.2 ⟨_, hnt, bind_ok_iff.2 ⟨_, bootstrap, rfl⟩⟩⟩

theorem grows_internLoadables [Growing Pool] [Growing Tables] [Interning limits]
    (vs : List Loadable) (hvs : Loadable.AllWithin limits vs) :
    Grows limits (internLoadables vs) fun f is =>
      List.Forall₂ (fun i v => Resolves v f i) is vs := by
  cases vs with
  | nil =>
    rw [internLoadables]
    exact .pure fun f => .nil
  | cons v vs =>
    rw [Loadable.AllWithin] at hvs
    rw [internLoadables]
    refine .bind (grows_internLoadable v hvs.1) fun i _ => ?_
    refine .bind (grows_internLoadables vs hvs.2) fun is _ => ?_
    exact .pure fun f his hi => .cons hi his

end

section

variable [Growing Pool] [Growing Tables] [Interning limits]

theorem grows_internBootstrap {b : Bootstrap} (hb : b.Within limits) :
    Grows limits (internBootstrap b) fun f i => ∀ levels, b.Resolvable levels →
      bootstrapAt f.bootstraps f.pool (levels + 1) i = .ok b := by
  refine .bind (grows_handle hb.handle) fun k _ => ?_
  have args := Loadable.allWithin_iff.2 hb.args
  refine .bind (grows_internLoadables b.args args) fun is his => ?_
  obtain ⟨_, his⟩ := his
  have arity := hb.arity
  rw [← his.length_eq] at arity
  refine (grows_internEntry arity).mono fun f i hi hargs hk levels resolvable => ?_
  exact bootstrapAt_succ hi (hk resolvable.handle).1 hargs resolvable.args

theorem grows_internCallSite {name desc : String} {b : Bootstrap} (hn : limits.text name)
    (hd : limits.text desc) (hb : b.Within limits) :
    Grows limits (internCallSite name desc b) fun f i =>
      b.Resolvable BootstrapTable.nestingLimit →
        f.bootstraps.callSite f.pool i = .ok (.callSite name desc b) := by
  refine .bind (grows_internBootstrap hb) fun entry _ => ?_
  refine .bind (grows_nameAndType hn hd) fun nt _ => ?_
  refine (grows_constant (by nofun)).mono fun f i hi hnt hentry resolvable => ?_
  have bootstrap := hentry _ resolvable
  exact bind_ok_iff.2 ⟨_, hi.2, bind_ok_iff.2 ⟨_, hnt, bind_ok_iff.2 ⟨_, bootstrap, rfl⟩⟩⟩

end

end Tables

namespace BootstrapTable

theorem readsAt_entry {o : Nat} {e : BootstrapEntry} (fits : e.args.length < 65536) :
    ReadsAt o readEntry
      (Bytes.be 2 e.handle.toNat ++ Bytes.be 2 e.args.length ++
        e.args.flatMap fun a => Bytes.be 2 a.toNat) e := by
  rw [List.append_assoc]
  refine .bind (.u16_toNat e.handle) (.bind_last (a := e.args) ?_ (.pure e))
  exact .countedMap (fun a _ o => .u16_toNat a) fits

theorem toList_ofEntries (entries : List BootstrapEntry) :
    (ofEntries entries).toList = entries := by
  have grown : ∀ (es : List BootstrapEntry) (t : BootstrapTable),
      (es.foldl (fun t e => t.push e) t).toList = t.toList ++ es := by
    intro es
    induction es with
    | nil => simp
    | cons e es ih =>
      intro t
      rw [List.foldl_cons, ih, Indexed.toList_push, List.append_assoc, List.singleton_append]
  rw [ofEntries, grown]
  rfl

theorem parse_encode {t : BootstrapTable} (size : t.toList.length < 65536)
    (arity : ∀ e ∈ t.toList, e.args.length < 65536) : parse t.encode = .ok t := by
  have entries : ReadsAt 0 (Reader.counted readEntry) (Bytes.be 2 t.toList.length ++ _) t.toList :=
    .countedMap (fun e he o => readsAt_entry (arity e he)) size
  have whole : ofEntries t.toList = t := Indexed.ext_toList (toList_ofEntries t.toList)
  apply ReadsAll.runOn
  rw [encode, Indexed.size_eq, ← List.append_nil (_ ++ _)]
  refine .bind entries (.bind_remaining ?_)
  rw [if_neg (fun h => h rfl), whole]
  exact (ReadsAt.pure t).all

theorem loadableWith_cases {p : Pool} {resolve : UInt16 → Except FormatError Bootstrap}
    {i : UInt16} {v : Loadable} (h : loadableWith p resolve i = .ok v) :
    (∃ n, v = .int n) ∨ (∃ n, v = .float n) ∨ (∃ n, v = .long n) ∨ (∃ n, v = .double n) ∨
    (∃ text j, p.utf8 j = .ok text ∧ (v = .string text ∨ v = .type text ∨ v = .methodType text)) ∨
    (∃ handle, p.handle i = .ok handle ∧ v = .handle handle) ∨
    (∃ name desc j k b, p.nameAndType j = .ok (name, desc) ∧ resolve k = .ok b ∧
      v = .dynamic name desc b.handle b.args) := by
  obtain ⟨c, hc, h⟩ := bind_ok_iff.1 h
  cases c with
  | integer n =>
    cases h
    exact .inl ⟨n, rfl⟩
  | float n =>
    cases h
    exact .inr (.inl ⟨n, rfl⟩)
  | long n =>
    cases h
    exact .inr (.inr (.inl ⟨n, rfl⟩))
  | double n =>
    cases h
    exact .inr (.inr (.inr (.inl ⟨n, rfl⟩)))
  | string j =>
    obtain ⟨text, ht, h⟩ := bind_ok_iff.1 h
    cases h
    exact .inr (.inr (.inr (.inr (.inl ⟨text, j, ht, .inl rfl⟩))))
  | type j =>
    obtain ⟨text, ht, h⟩ := bind_ok_iff.1 h
    cases h
    exact .inr (.inr (.inr (.inr (.inl ⟨text, j, ht, .inr (.inl rfl)⟩))))
  | methodType j =>
    obtain ⟨text, ht, h⟩ := bind_ok_iff.1 h
    cases h
    exact .inr (.inr (.inr (.inr (.inl ⟨text, j, ht, .inr (.inr rfl)⟩))))
  | methodHandle kind j =>
    obtain ⟨handle, hh, h⟩ := bind_ok_iff.1 h
    cases h
    exact .inr (.inr (.inr (.inr (.inr (.inl ⟨handle, hh, rfl⟩)))))
  | dynamic entry nt =>
    obtain ⟨⟨name, desc⟩, hn, h⟩ := bind_ok_iff.1 h
    obtain ⟨b, hb, h⟩ := bind_ok_iff.1 h
    cases h
    exact .inr (.inr (.inr (.inr (.inr (.inr ⟨name, desc, nt, entry, b, hn, hb, rfl⟩)))))
  | _ => cases h

section

variable {s f : Tables} (h : Tables.Extended s f)

include h

theorem loadableWith_of_extended {resolve resolve' : UInt16 → Except FormatError Bootstrap}
    (hr : ∀ k b, resolve k = .ok b → resolve' k = .ok b) {i : UInt16} {v : Loadable}
    (hv : loadableWith s.pool resolve i = .ok v) : loadableWith f.pool resolve' i = .ok v := by
  obtain ⟨c, hc, hv⟩ := bind_ok_iff.1 hv
  apply bind_ok_iff.2
  have hc' := Pool.get_of_extends h.pool hc
  have text : ∀ {j : UInt16} {k : String → Except FormatError Loadable},
      (s.pool.utf8 j >>= k) = .ok v → (f.pool.utf8 j >>= k) = .ok v := by
    intro j k hv
    obtain ⟨a, ha, hv⟩ := bind_ok_iff.1 hv
    exact bind_ok_iff.2 ⟨a, Pool.utf8_of_extends h.pool ha, hv⟩
  cases c with
  | string j => exact ⟨_, hc', text hv⟩
  | type j => exact ⟨_, hc', text hv⟩
  | methodType j => exact ⟨_, hc', text hv⟩
  | methodHandle kind j =>
    obtain ⟨handle, hh, hv⟩ := bind_ok_iff.1 hv
    exact ⟨_, hc', bind_ok_iff.2 ⟨handle, Pool.handle_of_extends h.pool hh, hv⟩⟩
  | dynamic entry nt =>
    obtain ⟨⟨name, desc⟩, hn, hv⟩ := bind_ok_iff.1 hv
    obtain ⟨b, hb, hv⟩ := bind_ok_iff.1 hv
    have named := Pool.nameAndType_of_extends h.pool hn
    exact ⟨_, hc', bind_ok_iff.2 ⟨_, named, bind_ok_iff.2 ⟨b, hr entry b hb, hv⟩⟩⟩
  | _ => exact ⟨_, hc', hv⟩

theorem bootstrapAt_of_extended {levels : Nat} {i : UInt16} {b : Bootstrap}
    (hb : bootstrapAt s.bootstraps s.pool levels i = .ok b) :
    bootstrapAt f.bootstraps f.pool levels i = .ok b := by
  induction levels generalizing i b with
  | zero => cases hb
  | succ levels ih =>
    unfold bootstrapAt at hb ⊢
    cases found : s.bootstraps.get? i.toNat with
    | none =>
      rw [found] at hb
      cases hb
    | some entry =>
      rw [found] at hb
      rw [Indexed.Grown.get? h.bootstraps found]
      obtain ⟨args, hargs, hb⟩ := bind_ok_iff.1 hb
      obtain ⟨handle, hh, hb⟩ := bind_ok_iff.1 hb
      have args' := (mapM_ok_iff.1 hargs).imp fun j v hv =>
        loadableWith_of_extended h (fun k b => ih) hv
      exact bind_ok_iff.2 ⟨args, mapM_ok_iff.2 args',
        bind_ok_iff.2 ⟨handle, Pool.handle_of_extends h.pool hh, hb⟩⟩

theorem loadable_of_extended {i : UInt16} {v : Loadable}
    (hv : loadable s.bootstraps s.pool i = .ok v) : loadable f.bootstraps f.pool i = .ok v :=
  loadableWith_of_extended h (fun _ _ => bootstrapAt_of_extended h) hv

end

variable {limits : Limits} {t : BootstrapTable} {p : Pool}

theorem within_of_loadableWith (hp : p.WellFormed limits)
    {resolve : UInt16 → Except FormatError Bootstrap}
    (hr : ∀ k b, resolve k = .ok b → b.Within limits) {i : UInt16} {v : Loadable}
    (h : loadableWith p resolve i = .ok v) : v.Within limits := by
  rcases loadableWith_cases h with ⟨n, rfl⟩ | ⟨n, rfl⟩ | ⟨n, rfl⟩ | ⟨n, rfl⟩ |
    ⟨text, j, ht, rfl | rfl | rfl⟩ | ⟨handle, hh, rfl⟩ | ⟨name, desc, j, k, b, hn, hb, rfl⟩
  all_goals rw [Loadable.Within]; try exact True.intro
  · exact Pool.text_of_utf8 hp ht
  · exact Pool.text_of_utf8 hp ht
  · exact Pool.text_of_utf8 hp ht
  · exact Pool.within_of_handle hp hh
  · obtain ⟨htext, hdesc⟩ := Pool.texts_of_nameAndType hp hn
    have hb := hr k b hb
    exact ⟨htext, hdesc, hb.handle, hb.arity, Loadable.allWithin_iff.2 hb.args⟩

theorem resolvable_of_loadableWith (plain : p.PlainHandles)
    {resolve : UInt16 → Except FormatError Bootstrap} {levels : Nat}
    (hr : ∀ k b, resolve k = .ok b → ∃ n, levels = n + 1 ∧ b.Resolvable n) {i : UInt16}
    {v : Loadable} (h : loadableWith p resolve i = .ok v) : v.Resolvable levels := by
  rcases loadableWith_cases h with ⟨n, rfl⟩ | ⟨n, rfl⟩ | ⟨n, rfl⟩ | ⟨n, rfl⟩ |
    ⟨text, j, ht, rfl | rfl | rfl⟩ | ⟨handle, hh, rfl⟩ | ⟨name, desc, j, k, b, hn, hb, rfl⟩
  case inr.inr.inr.inr.inr.inl =>
    rw [Loadable.Resolvable]
    exact Pool.plain_of_handle plain hh
  case inr.inr.inr.inr.inr.inr =>
    obtain ⟨n, rfl, hb⟩ := hr k b hb
    rw [Loadable.Resolvable]
    exact ⟨hb.handle, Loadable.allResolvable_iff.2 hb.args⟩
  all_goals simp [Loadable.Resolvable]

theorem bootstrapAt_cases {levels : Nat} {i : UInt16} {b : Bootstrap}
    (h : bootstrapAt t p levels i = .ok b) :
    ∃ n entry, levels = n + 1 ∧ entry ∈ t.toList ∧ p.handle entry.handle = .ok b.handle ∧
      List.Forall₂ (fun i v => loadableWith p (bootstrapAt t p n) i = .ok v) entry.args b.args := by
  cases levels with
  | zero => cases h
  | succ levels =>
    unfold bootstrapAt at h
    split at h
    · cases h
    · rename_i entry found
      obtain ⟨args, hargs, h⟩ := bind_ok_iff.1 h
      obtain ⟨handle, hh, h⟩ := bind_ok_iff.1 h
      cases h
      rw [Indexed.get?_eq] at found
      exact ⟨levels, entry, rfl, List.mem_of_getElem? found, hh, mapM_ok_iff.1 hargs⟩

theorem within_of_bootstrapAt (ht : t.WellFormed limits) (hp : p.WellFormed limits) {levels : Nat}
    {i : UInt16} {b : Bootstrap} (h : bootstrapAt t p levels i = .ok b) : b.Within limits := by
  induction levels generalizing i b with
  | zero => cases h
  | succ levels ih =>
    obtain ⟨n, entry, same, mem, hh, hargs⟩ := bootstrapAt_cases h
    cases same
    refine ⟨Pool.within_of_handle hp hh, ?_, fun x hx => ?_⟩
    · rw [← hargs.length_eq]
      exact ht.arities entry mem
    · obtain ⟨j, _, hj⟩ := exists_left_of_forall₂ hargs hx
      exact within_of_loadableWith hp (fun k b => ih) hj

theorem resolvable_of_bootstrapAt (plain : p.PlainHandles) {levels : Nat} {i : UInt16}
    {b : Bootstrap} (h : bootstrapAt t p levels i = .ok b) :
    ∃ n, levels = n + 1 ∧ b.Resolvable n := by
  induction levels generalizing i b with
  | zero => cases h
  | succ levels ih =>
    obtain ⟨n, entry, same, _, hh, hargs⟩ := bootstrapAt_cases h
    cases same
    refine ⟨levels, rfl, Pool.plain_of_handle plain hh, fun x hx => ?_⟩
    obtain ⟨j, _, hj⟩ := exists_left_of_forall₂ hargs hx
    exact resolvable_of_loadableWith plain (fun k b => ih) hj

end BootstrapTable

end ClassWeave
