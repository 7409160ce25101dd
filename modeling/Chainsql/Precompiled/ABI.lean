import Chainsql.Evm.Word
import Mathlib.Algebra.BigOperators.Ring.List
import Mathlib.Data.Vector.Basic

/-!
# The ABI codec of the precompiled contracts

`ContractABI` writes the values of static types in place, and those of dynamic types behind the others, with
their offsets in place. Offsets are read as 256-bit words and cut to `size_t`. The reader throws where an offset
is not inside of the bytes, and a range that is not inside of them reads as empty.
-/

namespace Chainsql.ContractABI

open Evm

inductive Ty
  | u256
  | s256
  | bool
  | address
  | string32
  | string
  | array (elem : Ty) (n : ℕ)
  | vector (elem : Ty)

/-- `s256` holds a sign and 256 bits. -/
abbrev S256 := { i : ℤ // i.natAbs < 2 ^ 256 }

namespace Ty

abbrev Val : Ty → Type
  | u256 => Word
  | s256 => S256
  | bool => Bool
  | address => List.Vector UInt8 20
  | string32 => List.Vector UInt8 32
  | string => Bytes
  | array elem n => List.Vector elem.Val n
  -- the size is a `size_t`
  | vector elem => { l : List elem.Val // l.length < 2 ^ 64 }

/-- `ABIDynamicType` -/
def isDynamic : Ty → Bool
  | string => true
  | vector _ => true
  | array elem _ => elem.isDynamic
  | _ => false

/-- `Length`: the words in place. -/
def length : Ty → ℕ
  | array elem n => if elem.isDynamic then 1 else n * elem.length
  | _ => 1

theorem length_of_isDynamic {t : Ty} (h : t.isDynamic = true) : t.length = 1 := by
  cases t with
  | array elem n => exact if_pos h
  | _ => rfl

end Ty

abbrev Arg := Σ t : Ty, t.Val

/-! ## Writing -/

def word (n : ℕ) : Bytes := Word.toBytes (BitVec.ofNat 256 n)

/-- The loop of `abiIn`, and those of `serialise` for arrays: what is written in place and what behind it, for
values of which those of dynamic types are marked. -/
def layout : ℕ → List (Bool × Bytes) → Bytes × Bytes
  | _, [] => ([], [])
  | offset, (true, out) :: rest =>
    let (fixed, dynamic) := layout (offset + out.length) rest
    (word offset ++ fixed, out ++ dynamic)
  | offset, (false, out) :: rest =>
    let (fixed, dynamic) := layout offset rest
    (out ++ fixed, dynamic)

def join (parts : Bytes × Bytes) : Bytes := parts.1 ++ parts.2

def serialise : (t : Ty) → t.Val → Bytes
  | .u256, v => Word.toBytes v
  | .s256, v => Word.toBytes (BitVec.ofInt 256 v.1)
  | .bool, v => word (if v then 1 else 0)
  | .address, v => zeros 12 ++ v.toList
  | .string32, v => v.toList
  | .string, v => word v.length ++ (v ++ zeros ((v.length + 31) / 32 * 32 - v.length))
  | .array elem n, v => join (layout (n * 32) (v.toList.map fun x => (elem.isDynamic, serialise elem x)))
  | .vector elem, v =>
    word v.1.length ++ join (layout (v.1.length * 32) (v.1.map fun x => (elem.isDynamic, serialise elem x)))

/-- The words in place are counted in an `int`: arguments with `2 ^ 26` words in place or more are not considered. -/
def abiIn (args : List Arg) : Bytes :=
  join (layout ((args.map fun a => a.1.length).sum * 32) (args.map fun a => (a.1.isDynamic, serialise a.1 a.2)))

/-! ## Reading -/

section Reading

variable (data : Bytes)

/-- The offset is a `size_t`. -/
def validOffset (offset : ℕ) : Option Unit := if u64 offset < data.length then some () else none

/-- The sum is a `size_t` in the source. It can be too great for one only with a length from other bytes than those
that have been written. -/
def cropped (start count : ℕ) : Bytes := if start + count ≤ data.length then slice data start count else []

def populate (n : ℕ) (bs : Bytes) : List.Vector UInt8 n :=
  ⟨(bs ++ zeros n).take n, by simp [zeros]⟩

def deserialiseWord (offset : ℕ) : Option Word := do
  validOffset data (offset + 31)
  return Word.ofBytes (cropped data offset 32)

def toS256 (u : Word) : S256 :=
  if h : 0x8fffffffffffffffffffffffffffffffffffffffffffffffffffffffffffffff < u.toNat then
    ⟨-(2 ^ 256 - u.toNat : ℕ), by omega⟩
  else ⟨u.toNat, by omega⟩

/-- Where the value is whose place is at `head`. Offsets count from `base`. -/
def locate (t : Ty) (base head : ℕ) : Option ℕ :=
  if t.isDynamic then (deserialiseWord data head).map fun w => u64 (base + w.toSize) else some head

/-- The elements of an array, from one on. -/
def each {α : Type} (read : ℕ → Option α) : (n u : ℕ) → Option (List.Vector α n)
  | 0, _ => some .nil
  | n + 1, u => do
    let x ← read u
    let xs ← each read n (u + 1)
    return x ::ᵥ xs

/-- An element of an array, with `read` for the type of the elements. -/
def elementAt (elem : Ty) (read : ℕ → Option elem.Val) (base u : ℕ) : Option elem.Val :=
  locate data elem base (u64 (base + u * elem.length * 32)) >>= read

def deserialise : (t : Ty) → ℕ → Option t.Val
  | .u256, offset => deserialiseWord data offset
  | .s256, offset => (deserialiseWord data offset).map toS256
  | .bool, offset => (deserialiseWord data offset).map fun w => decide (0 < w.toNat)
  | .address, offset => do
    validOffset data (offset + 31)
    return populate 20 (cropped data (u64 (offset + 12)) 20)
  | .string32, offset => do
    validOffset data (offset + 31)
    return populate 32 (cropped data offset 32)
  | .string, offset => do
    let len ← deserialiseWord data offset
    validOffset data (offset + 32 + len.toSize - 1)
    return cropped data (u64 (offset + 32)) len.toSize
  | .array elem n, offset => each (elementAt data elem (deserialise elem) offset) n 0
  | .vector elem, offset => do
    let length ← deserialiseWord data offset
    let xs ← each (elementAt data elem (deserialise elem) (u64 (offset + 32))) length.toSize 0
    return ⟨xs.toList, xs.toList_length.trans_lt (Nat.mod_lt _ (Nat.two_pow_pos 64))⟩

/-- The values up to the first that cannot be read, and whether there is none. -/
def abiOutAux : ℕ → List Ty → List Arg × Bool
  | _, [] => ([], true)
  | offset, t :: rest =>
    match locate data t 0 offset >>= deserialise data t with
    | none => ([], false)
    | some v =>
      let (vs, ok) := abiOutAux (u64 (offset + t.length * 32)) rest
      (⟨t, v⟩ :: vs, ok)

def abiOut (types : List Ty) : List Arg × Bool := abiOutAux data 0 types

end Reading

/-! ## What is read from what has been written -/

/-- What is read for a value that has been written. -/
def stored : (t : Ty) → t.Val → t.Val
  | .s256, v => toS256 (BitVec.ofInt 256 v.1)
  | .array elem _, v => v.map (stored elem)
  | .vector elem, v => ⟨v.1.map (stored elem), by simpa using v.2⟩
  | .u256, v | .bool, v | .address, v | .string32, v | .string, v => v

/-- The signed values are those that the reader takes for signed ones of their sign. -/
def Fits : (t : Ty) → t.Val → Prop
  | .s256, v => -0x7000000000000000000000000000000000000000000000000000000000000000 ≤ v.1 ∧
    v.1 ≤ 0x8fffffffffffffffffffffffffffffffffffffffffffffffffffffffffffffff
  | .array elem _, v => ∀ x ∈ v.toList, Fits elem x
  | .vector elem, v => ∀ x ∈ v.1, Fits elem x
  | .u256, _ | .bool, _ | .address, _ | .string32, _ | .string, _ => True

theorem stored_eq_iff {t : Ty} {v : t.Val} : stored t v = v ↔ Fits t v := by
  have hlist : ∀ {t : Ty} {l : List t.Val}, (∀ {v : t.Val}, stored t v = v ↔ Fits t v) →
      (l.map (stored t) = l ↔ ∀ x ∈ l, Fits t x) := by
    intro t l h
    have hid := List.map_inj_left (l := l) (f := stored t) (g := id)
    rw [List.map_id] at hid
    exact hid.trans (forall₂_congr fun _ _ => h)
  induction t with
  | s256 =>
    obtain ⟨i, hi⟩ := v
    have hmod : (BitVec.ofInt 256 i).toNat = (i % 2 ^ 256).toNat := BitVec.toNat_ofInt ..
    rw [Subtype.ext_iff, stored, toS256, Fits]
    split
    all_goals
      rename_i h
      simp only [hmod] at h ⊢
      omega
  | array elem n ih => rw [← List.Vector.toList_injective.eq_iff, stored, List.Vector.toList_map]; exact hlist ih
  | vector elem ih => rw [Subtype.ext_iff]; exact hlist ih
  | _ => exact iff_of_true rfl trivial

section Layout

variable {data x y : Bytes} {o base offset : ℕ} {items : List (Bool × Bytes)}

/-- The bytes `x` are at `o`. -/
def Holds (data : Bytes) (o : ℕ) (x : Bytes) : Prop := ∃ pre post, data = pre ++ (x ++ post) ∧ pre.length = o

theorem Holds.append (h : Holds data o (x ++ y)) : Holds data o x ∧ Holds data (o + x.length) y := by
  obtain ⟨pre, post, rfl, rfl⟩ := h
  exact ⟨⟨pre, y ++ post, by simp, rfl⟩, ⟨pre ++ x, post, by simp, by simp⟩⟩

theorem Holds.le (h : Holds data o x) : o + x.length ≤ data.length := by
  obtain ⟨pre, post, rfl, rfl⟩ := h
  simp only [List.length_append]
  omega

theorem Holds.cropped (h : Holds data o x) : cropped data o x.length = x := by
  rw [ContractABI.cropped, if_pos h.le]
  obtain ⟨pre, post, rfl, rfl⟩ := h
  simp [slice]

theorem length_word (n : ℕ) : (word n).length = 32 := by simp [word, Word.toBytes]

theorem length_layout (items : List (Bool × Bytes)) (offset : ℕ) :
    (layout offset items).1.length = (items.map fun i => if i.1 then 32 else i.2.length).sum := by
  induction items generalizing offset with
  | nil => rfl
  | cons item items ih => obtain ⟨_ | _, out⟩ := item <;> simp [layout, ih, length_word]

theorem layout_static (h : ∀ i ∈ items, i.1 = false) (offset offset' : ℕ) :
    layout offset items = layout offset' items ∧ (layout offset items).2 = [] := by
  induction items with
  | nil => exact ⟨rfl, rfl⟩
  | cons item items ih =>
    obtain ⟨dynamic, out⟩ := item
    obtain rfl : dynamic = false := h _ List.mem_cons_self
    obtain ⟨heq, hnil⟩ := ih fun i hi => h i (List.mem_cons_of_mem _ hi)
    rw [layout, layout, heq]
    exact ⟨rfl, heq ▸ hnil⟩

theorem length_serialise {t : Ty} (h : t.isDynamic = false) (v : t.Val) : (serialise t v).length = t.length * 32 := by
  induction t with
  | array elem n ih =>
    have helem : elem.isDynamic = false := h
    rw [serialise, join, (layout_static (by simp [helem]) (n * 32) 0).2, List.append_nil, length_layout, List.map_map,
      Ty.length, if_neg (by simp [helem])]
    simp [Function.comp_def, helem, ih, Nat.mul_assoc]
  | string => cases h
  | vector elem ih => cases h
  | address => simp [serialise, Ty.length, zeros]
  | string32 => simp [serialise, Ty.length]
  | _ => simp [serialise, Ty.length, word, Word.toBytes]

/-- The rest of some values, with the place of the first one at `o`. -/
structure Laid (data : Bytes) (base o offset : ℕ) (items : List (Bool × Bytes)) : Prop where
  fixed : Holds data o (layout offset items).1
  dynamic : Holds data (base + offset) (layout offset items).2

theorem Laid.of_join (h : Holds data base (join (layout offset items)))
    (hoffset : (layout offset items).1.length = offset ∨ ∀ i ∈ items, i.1 = false) :
    ∃ offset', Laid data base base offset' items := by
  obtain ⟨hfixed, hdynamic⟩ := h.append
  rcases hoffset with hoffset | hstatic
  · rw [hoffset] at hdynamic
    exact ⟨offset, hfixed, hdynamic⟩
  · generalize (layout offset items).1.length = offset' at hdynamic
    rw [(layout_static hstatic offset offset').1] at hfixed hdynamic
    exact ⟨offset', hfixed, hdynamic⟩

variable (hsize : data.length < 2 ^ 64)
include hsize

theorem u64_eq (h : o ≤ data.length) : u64 o = o := Nat.mod_eq_of_lt (h.trans_lt hsize)

theorem validOffset_eq (h : o < data.length) : validOffset data o = some () := by
  rw [validOffset, u64_eq hsize h.le, if_pos h]

theorem deserialiseWord_eq {w : Word} (h : Holds data o w.toBytes) : deserialiseWord data o = some w := by
  have hle := h.le
  have hcropped := h.cropped
  simp only [Word.toBytes, List.length_map, List.length_range] at hle hcropped
  rw [deserialiseWord, validOffset_eq hsize (by omega), hcropped]
  exact congrArg some (Word.ofBytes_toBytes w)

omit hsize in
theorem toSize_ofNat {n : ℕ} (h : n < 2 ^ 64) : Word.toSize (BitVec.ofNat 256 n) = n := by
  simp only [Word.toSize, u64, BitVec.toNat_ofNat]
  omega

theorem Laid.step {t : Ty} {v : t.Val} (h : Laid data base o offset ((t.isDynamic, serialise t v) :: items)) :
    ∃ p offset', locate data t base o = some p ∧ Holds data p (serialise t v) ∧
      Laid data base (o + t.length * 32) offset' items := by
  obtain ⟨hfixed, hdynamic⟩ := h
  rw [locate]
  cases ht : t.isDynamic with
  | true =>
    rw [ht] at hfixed hdynamic
    obtain ⟨hword, hfixed⟩ := hfixed.append
    obtain ⟨hout, hdynamic⟩ := hdynamic.append
    have hle := hout.le
    refine ⟨_, offset + (serialise t v).length, by rw [if_pos rfl, deserialiseWord_eq hsize hword]; rfl, ?_, ?_, ?_⟩
    · show Holds data (u64 (base + Word.toSize (BitVec.ofNat 256 offset))) _
      rwa [toSize_ofNat (by omega), u64_eq hsize (by omega)]
    · rw [Ty.length_of_isDynamic ht]
      rwa [length_word] at hfixed
    · rwa [← Nat.add_assoc]
  | false =>
    rw [ht] at hfixed hdynamic
    obtain ⟨hout, hfixed⟩ := hfixed.append
    rw [length_serialise ht] at hfixed
    exact ⟨o, offset, rfl, hout, hfixed, hdynamic⟩

variable {elem : Ty} (ih : ∀ {v o}, Holds data o (serialise elem v) → deserialise data elem o = some (stored elem v))
include ih

theorem each_eq (vs : List elem.Val) {u : ℕ}
    (h : Laid data base (base + u * elem.length * 32) offset (vs.map fun x => (elem.isDynamic, serialise elem x))) :
    (each (elementAt data elem (deserialise data elem) base) vs.length u).map List.Vector.toList =
      some (vs.map (stored elem)) := by
  induction vs generalizing u offset with
  | nil => rfl
  | cons v vs ihvs =>
    obtain ⟨p, offset', hlocate, hv, hrest⟩ := h.step hsize
    rw [Nat.add_assoc, ← Nat.add_mul, ← Nat.succ_mul] at hrest
    obtain ⟨xs, hxs, hlist⟩ := Option.map_eq_some_iff.mp (ihvs hrest)
    have hread : elementAt data elem (deserialise data elem) base u = some (stored elem v) := by
      rw [elementAt, u64_eq hsize (Nat.le_of_add_right_le h.fixed.le), hlocate]
      exact ih hv
    rw [List.length_cons, each, hread, hxs]
    exact congrArg some (congrArg (stored elem v :: ·) hlist)

theorem each_join (vs : List elem.Val)
    (h : Holds data base (join (layout (vs.length * 32) (vs.map fun x => (elem.isDynamic, serialise elem x))))) :
    (each (elementAt data elem (deserialise data elem) base) vs.length 0).map List.Vector.toList =
      some (vs.map (stored elem)) := by
  have hoffset : (layout (vs.length * 32) (vs.map fun x => (elem.isDynamic, serialise elem x))).1.length =
      vs.length * 32 ∨ ∀ i ∈ vs.map fun x => (elem.isDynamic, serialise elem x), i.1 = false := by
    cases helem : elem.isDynamic with
    | true => exact .inl (by simp [length_layout, Function.comp_def])
    | false => exact .inr (by simp)
  obtain ⟨offset, hlaid⟩ := Laid.of_join h hoffset
  exact each_eq hsize ih vs (u := 0) (by rwa [Nat.zero_mul, Nat.zero_mul])

end Layout

theorem populate_toList {n : ℕ} (v : List.Vector UInt8 n) : populate n v.toList = v := by
  refine List.Vector.eq _ _ ?_
  show (v.toList ++ zeros n).take n = v.toList
  rw [List.take_append_of_le_length v.toList_length.ge, List.take_of_length_le v.toList_length.le]

theorem deserialise_serialise {data : Bytes} (hsize : data.length < 2 ^ 64) {t : Ty} {v : t.Val} {o : ℕ}
    (h : Holds data o (serialise t v)) : deserialise data t o = some (stored t v) := by
  induction t generalizing o with
  | u256 => exact deserialiseWord_eq hsize h
  | s256 => rw [deserialise, deserialiseWord_eq hsize h]; rfl
  | bool =>
    rw [deserialise, deserialiseWord_eq hsize h]
    cases v <;> rfl
  | address =>
    obtain ⟨-, h⟩ := h.append
    have hle := h.le
    have hcropped := h.cropped
    simp only [List.Vector.toList_length, zeros, List.length_replicate] at hle hcropped
    rw [deserialise, validOffset_eq hsize (by omega), u64_eq hsize (by omega), hcropped]
    exact congrArg some (populate_toList v)
  | string32 =>
    have hle := h.le
    have hcropped := h.cropped
    simp only [serialise, List.Vector.toList_length] at hle hcropped
    rw [deserialise, validOffset_eq hsize (by omega), hcropped]
    exact congrArg some (populate_toList v)
  | string =>
    obtain ⟨hword, h⟩ := h.append
    obtain ⟨h, -⟩ := h.append
    have hle := h.le
    rw [length_word] at h hle
    rw [deserialise, deserialiseWord_eq hsize hword]
    simp only [Option.bind_eq_bind, Option.bind_some, toSize_ofNat (show v.length < 2 ^ 64 by omega)]
    rw [validOffset_eq hsize (by omega), u64_eq hsize (by omega), h.cropped]
    rfl
  | array elem n ih =>
    obtain ⟨vs, rfl⟩ := v
    refine Option.map_injective List.Vector.toList_injective ((each_join hsize ih vs h).trans ?_)
    rfl
  | vector elem ih =>
    obtain ⟨hword, h⟩ := h.append
    have hle := h.le
    rw [length_word] at h hle
    obtain ⟨vs, hvs⟩ := v
    have heach := each_join hsize ih vs h
    rw [← toSize_ofNat hvs] at heach
    obtain ⟨xs, hxs, hlist⟩ := Option.map_eq_some_iff.mp heach
    rw [deserialise, deserialiseWord_eq hsize hword, u64_eq hsize (by omega)]
    simp only [Option.bind_eq_bind, Option.bind_some, hxs]
    exact congrArg some (Subtype.ext hlist)

theorem abiOut_abiIn {args : List Arg} (hsize : (abiIn args).length < 2 ^ 64) :
    abiOut (abiIn args) (args.map Sigma.fst) = (args.map fun a => ⟨a.1, stored a.1 a.2⟩, true) := by
  have hlength : ∀ (args : List Arg) (offset : ℕ),
      (layout offset (args.map fun a => (a.1.isDynamic, serialise a.1 a.2))).1.length
        = (args.map fun a => a.1.length).sum * 32 := by
    intro args offset
    rw [length_layout, List.map_map, ← List.sum_map_mul_right]
    refine congrArg List.sum (List.map_congr_left fun a _ => ?_)
    cases ht : a.1.isDynamic with
    | true => simp [ht, Ty.length_of_isDynamic ht]
    | false => simp [ht, length_serialise ht]
  have hread : ∀ (args' : List Arg) (o offset : ℕ),
      Laid (abiIn args) 0 o offset (args'.map fun a => (a.1.isDynamic, serialise a.1 a.2)) →
      abiOutAux (abiIn args) o (args'.map Sigma.fst) = (args'.map fun a => ⟨a.1, stored a.1 a.2⟩, true) := by
    intro args'
    induction args' with
    | nil => exact fun _ _ _ => rfl
    | cons a args' ih =>
      intro o offset h
      obtain ⟨p, offset', hlocate, ha, hrest⟩ := h.step hsize
      have hv := deserialise_serialise hsize ha
      have hle := hrest.fixed.le
      rw [List.map_cons, abiOutAux, hlocate, u64_eq hsize (by omega), ih _ _ hrest]
      simp only [Option.bind_eq_bind, Option.bind_some, hv]
      rfl
  have hjoin : Holds (abiIn args) 0 (abiIn args) := ⟨[], [], (List.append_nil _).symm, rfl⟩
  obtain ⟨offset, hlaid⟩ := Laid.of_join hjoin (.inl (hlength args _))
  exact hread args 0 offset hlaid

/-- What has been written is read back, except for signed values that the reader takes for ones of the other
sign. -/
theorem abi_round_trip_iff {args : List Arg} (hsize : (abiIn args).length < 2 ^ 64) :
    abiOut (abiIn args) (args.map Sigma.fst) = (args, true) ↔ ∀ a ∈ args, Fits a.1 a.2 := by
  rw [abiOut_abiIn hsize, Prod.mk.injEq, and_iff_left rfl]
  have hid := List.map_inj_left (l := args) (f := fun a => (⟨a.1, stored a.1 a.2⟩ : Arg)) (g := id)
  rw [List.map_id] at hid
  refine hid.trans (forall₂_congr fun a _ => ?_)
  rw [← stored_eq_iff, id, Sigma.ext_iff]
  simp

def demoArgs : List Arg :=
  [⟨.vector (.array .s256 2), [⟨[⟨-5, by decide⟩, ⟨7, by decide⟩], rfl⟩], by decide⟩, ⟨.string, [0x61, 0x62]⟩]

theorem abi_round_trip_iff_demoArgs : abiOut (abiIn demoArgs) (demoArgs.map Sigma.fst) = (demoArgs, true) := by
  refine (abi_round_trip_iff (by decide +kernel)).mpr (List.forall_mem_cons.mpr ⟨?_, List.forall_mem_singleton.mpr trivial⟩)
  rintro _ (_ | ⟨_, ⟨⟩⟩) _ (_ | ⟨_, _ | ⟨_, ⟨⟩⟩⟩)
  · exact ⟨by decide, by decide⟩
  · exact ⟨by decide, by decide⟩

/-- The least value of `int256` is read as a positive one. -/
theorem least_read_positive :
    abiOut (abiIn [⟨.s256, -2 ^ 255, by decide⟩]) [.s256] = ([⟨.s256, 2 ^ 255, by decide⟩], true) := by
  rfl

end Chainsql.ContractABI
