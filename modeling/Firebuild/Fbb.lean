/-
  Firebuild.Fbb — measuring and serializing a message (`fbb/tpl.c`: the generated
  `builder_*_measure` and `builder_*_serialize`; `fbb/tpl.h`: the structures and the getters
  of string arrays).

  A builder has the wire structure as the setters left it and the fields of its message in the
  order of the definition, each with what the setters kept of it. The generated functions go
  through the fields once for each kind of field. `fbb_size_t` has 32 bits. A char pointer is
  the bytes it points to, with NUL after them. Both input forms of an array of messages give
  the message of an index.

  `Builder.size` says how long a message is: the structures, then the fields, each padded to a
  multiple of 8, in whatever order they come. Proved: `Builder.measure_eq`,
  `serialize_writes_measure`.
-/

import Mathlib.Algebra.BigOperators.Ring.List
import Firebuild.BlobCache
import Firebuild.Lib.Window

namespace Firebuild.Fbb

open Lib.Window
open List (range replicate foldl_cons)

/-! ## Messages -/

/-- The input forms of an array of strings: C strings, strings with a length, C++ strings, or
    a callback that returns a string with its length. -/
inductive StringInput where
  | array (items : List Bytes)
  | cstringViews (items : List (Bytes × Nat))
  | cxxStrings (items : List Bytes)
  | callback (itemFn : Nat → Bytes × Nat)

mutual
inductive Builder where
  | mk (wire : Bytes) (fields : List Field)

inductive Field where
  /-- A required or optional scalar, which is in the wire structure. -/
  | scalar
  | scalars (count size : Nat) (values : Bytes)
  /-- A required or optional string, with the length in the wire structure. -/
  | string (value : Option (Bytes × Nat))
  | fbb (value : Option Builder)
  | strings (count : Nat) (input : StringInput)
  | fbbs (count : Nat) (item : Nat → Builder)
end

/-- `fbb_size_t` -/
def u32 (n : Nat) : Nat := n % 4294967296

def strlen (s : Bytes) : Nat := (s.takeWhile (· ≠ 0)).length

namespace StringInput

def item : StringInput → Nat → Bytes × Nat
  | array items, idx => ((items.getD idx []), strlen (items.getD idx []))
  | cstringViews items, idx => items.getD idx ([], 0)
  | cxxStrings items, idx => ((items.getD idx []), (items.getD idx []).length)
  | callback itemFn, idx => itemFn idx

/-- `get_*_len_at()` -/
def getLenAt (input : StringInput) (idx : Nat) : Nat := u32 (input.item idx).2

/-- `get_*_with_len_at()` -/
def getWithLenAt (input : StringInput) (idx : Nat) : Bytes × Nat := ((input.item idx).1, u32 (input.item idx).2)

end StringInput

def Field.relptrs : Field → Nat
  | .scalar => 0
  | .scalars .. | .string _ | .fbb _ | .strings .. | .fbbs .. => 1

def relptrCount (fields : List Field) : Nat := (fields.map Field.relptrs).sum

/-! ## Measuring

What the code generated for one field of a kind does to the length; a field of another kind
has no such code. -/

def addPaddingLen (offset : Nat) : Nat := u32 (offset + 7) / 8 * 8

def measureScalars (len : Nat) : Field → Nat
  | .scalars count size _ => addPaddingLen (u32 (len + count * size))
  | _ => len

def measureString (len : Nat) : Field → Nat
  | .string (some (_, n)) => addPaddingLen (u32 (len + u32 (n + 1)))
  | _ => len

def measureStrings (len : Nat) : Field → Nat
  | .strings count input =>
    (range count).foldl (fun len idx => addPaddingLen (u32 (len + u32 (input.getLenAt idx + 1))))
      (addPaddingLen (u32 (len + u32 (2 * count) * 4)))
  | _ => len

mutual
def Builder.measure : Builder → Nat
  | .mk wire fields =>
    let len := u32 wire.length
    let len := if 0 < relptrCount fields then u32 (len + relptrCount fields * 4) else len
    let len := addPaddingLen len
    let len := fields.foldl measureScalars len
    let len := fields.foldl measureString len
    let len := measureFbbs len fields
    let len := fields.foldl measureStrings len
    let len := measureFbbArrays len fields
    addPaddingLen len

def measureFbbs : Nat → List Field → Nat
  | len, [] => len
  | len, .fbb (some b) :: fs => measureFbbs (u32 (len + b.measure)) fs
  | len, _ :: fs => measureFbbs len fs

def measureFbbArrays : Nat → List Field → Nat
  | len, [] => len
  | len, .fbbs count item :: fs =>
    measureFbbArrays ((range count).foldl (fun len idx => u32 (len + (item idx).measure))
      (addPaddingLen (u32 (len + count * 4)))) fs
  | len, _ :: fs => measureFbbArrays len fs
end

/-! ## Serializing -/

/-- The buffer, and the offset relative to the beginning of the message. -/
structure Cursor where
  mem : Memory
  offset : Nat

def le32 (n : Nat) : Bytes := [n, n / 256, n / 65536, n / 16777216].map UInt8.ofNat

def chars (s : Bytes) (n : Nat) : Bytes := s.takeD n 0

namespace Cursor

/-- `memcpy()` to the offset, which moves on. -/
def put (c : Cursor) (dst : Nat) (d : Bytes) : Cursor := ⟨write c.mem (dst + c.offset) d, u32 (c.offset + d.length)⟩

def pad (c : Cursor) (dst : Nat) : Cursor := c.put dst (replicate (7 - (c.offset + 7) % 8) 0)

def poke (c : Cursor) (addr n : Nat) : Cursor := { c with mem := write c.mem addr (le32 n) }

def skip (c : Cursor) (n : Nat) : Cursor := { c with offset := u32 (c.offset + n) }

end Cursor

/-- The code generated for the fields of a kind, with the index of each field's relptr. -/
def forFields (step : Nat → Field → Cursor → Cursor) : Nat → List Field → Cursor → Cursor
  | _, [], c => c
  | i, f :: fs, c => forFields step (i + f.relptrs) fs (step i f c)

section

variable (dst relptrs i : Nat)

def serializeScalars : Field → Cursor → Cursor
  | .scalars count size values, c =>
    if count > 0 then
      ((c.poke (relptrs + i * 4) c.offset).put dst (chars values (u32 (count * size)))).pad dst
    else c.poke (relptrs + i * 4) 0
  | _, c => c

def serializeString : Field → Cursor → Cursor
  | .string (some (s, n)), c => ((c.poke (relptrs + i * 4) c.offset).put dst (chars s (u32 (n + 1)))).pad dst
  | .string none, c => c.poke (relptrs + i * 4) 0
  | _, c => c

/-- One string of an array, with its place in the list of offsets and lengths. -/
def serializeItem (input : StringInput) (hops : Nat) (c : Cursor) (idx : Nat) : Cursor :=
  let (s, len) := input.getWithLenAt idx
  (((c.poke (hops + idx * 8) c.offset).poke (hops + idx * 8 + 4) len).put dst (chars s (u32 (len + 1)))).pad dst

def serializeStrings : Field → Cursor → Cursor
  | .strings count input, c =>
    if count > 0 then
      (range count).foldl (serializeItem dst input (dst + c.offset))
        (((c.poke (relptrs + i * 4) c.offset).skip (u32 (2 * count) * 4)).pad dst)
    else c.poke (relptrs + i * 4) 0
  | _, c => c

end

/-- What `serialize()` does before it comes to the fields. -/
def serializeStructures (wire : Bytes) (fields : List Field) (dst : Nat) (c : Cursor) : Cursor :=
  let c := c.put dst wire
  let c := if 0 < relptrCount fields then c.put dst (replicate (relptrCount fields * 4) 0) else c
  c.pad dst

mutual
def Builder.serialize : Builder → Nat → Memory → Cursor
  | .mk wire fields, dst, mem =>
    let relptrs := dst + wire.length
    let c := serializeStructures wire fields dst ⟨mem, 0⟩
    let c := forFields (serializeScalars dst relptrs) 0 fields c
    let c := forFields (serializeString dst relptrs) 0 fields c
    let c := serializeFbbs dst relptrs 0 fields c
    let c := forFields (serializeStrings dst relptrs) 0 fields c
    let c := serializeFbbArrays dst relptrs 0 fields c
    c.pad dst

def serializeFbbs (dst relptrs : Nat) : Nat → List Field → Cursor → Cursor
  | _, [], c => c
  | i, .fbb (some b) :: fs, c =>
    let c := c.poke (relptrs + i * 4) c.offset
    let sub := b.serialize (dst + c.offset) c.mem
    serializeFbbs dst relptrs (i + 1) fs ⟨sub.mem, u32 (c.offset + sub.offset)⟩
  | i, .fbb none :: fs, c => serializeFbbs dst relptrs (i + 1) fs (c.poke (relptrs + i * 4) 0)
  | i, f :: fs, c => serializeFbbs dst relptrs (i + f.relptrs) fs c

def serializeFbbArrays (dst relptrs : Nat) : Nat → List Field → Cursor → Cursor
  | _, [], c => c
  | i, .fbbs count item :: fs, c =>
    serializeFbbArrays dst relptrs (i + 1) fs
      (if count > 0 then
        let hops := dst + c.offset
        (range count).foldl (fun c idx =>
            let c := c.poke (hops + idx * 4) c.offset
            let sub := (item idx).serialize (dst + c.offset) c.mem
            ⟨sub.mem, u32 (c.offset + sub.offset)⟩)
          (((c.poke (relptrs + i * 4) c.offset).skip (count * 4)).pad dst)
      else c.poke (relptrs + i * 4) 0)
  | i, f :: fs, c => serializeFbbArrays dst relptrs (i + f.relptrs) fs c
end

/-! ## How long a message is -/

def pad8 (n : Nat) : Nat := (n + 7) / 8 * 8

mutual
def Builder.size : Builder → Nat
  | .mk wire fields => pad8 (wire.length + relptrCount fields * 4) + sizes fields

def sizes : List Field → Nat
  | [] => 0
  | f :: fs => f.size + sizes fs

def Field.size : Field → Nat
  | .scalar => 0
  | .scalars count size _ => pad8 (count * size)
  | .string none => 0
  | .string (some (_, n)) => pad8 (n + 1)
  | .fbb none => 0
  | .fbb (some b) => b.size
  | .strings count input => pad8 (count * 8) + ((range count).map fun idx => pad8 ((input.item idx).2 + 1)).sum
  | .fbbs count item => pad8 (count * 4) + ((range count).map fun idx => (item idx).size).sum
end

/-! ## Padding -/

theorem addPaddingLen_u32 (n : Nat) : addPaddingLen (u32 n) = u32 (pad8 n) := by
  unfold addPaddingLen u32 pad8
  omega

theorem u32_add (a b : Nat) : u32 (u32 a + b) = u32 (a + b) := by
  unfold u32
  omega

theorem u32_add_u32 (a b : Nat) : u32 (a + u32 b) = u32 (a + b) := by
  unfold u32
  omega

theorem u32_of_lt (h : n < 4294967296) : u32 n = n := Nat.mod_eq_of_lt h

variable {a : Nat}

theorem pad8_add (ha : 8 ∣ a) (b : Nat) : pad8 (a + b) = a + pad8 b := by
  unfold pad8
  omega

theorem pad8_of_dvd (ha : 8 ∣ a) : pad8 a = a := pad8_add ha 0

theorem dvd_pad8 (n : Nat) : 8 ∣ pad8 n := dvd_mul_left 8 _

theorem le_pad8 (n : Nat) : n ≤ pad8 n := by
  unfold pad8
  omega

/-! ## The messages inside of a message -/

/-- A message that is in a field. -/
inductive Field.Holds : Field → Builder → Prop where
  | fbb (b : Builder) : Holds (.fbb (some b)) b
  | fbbs (count : Nat) (item : Nat → Builder) (idx : Nat) : Holds (.fbbs count item) (item idx)

mutual
variable {P : Builder → Prop}

/-- What holds of a message if it holds of those in its fields holds of every message. -/
theorem Builder.induct
    (step : ∀ wire fields, (∀ f ∈ fields, ∀ b, f.Holds b → P b) → P (.mk wire fields)) : ∀ b : Builder, P b
  | .mk wire fields => step wire fields (Field.induct_all step fields)

theorem Field.induct_all (step : ∀ wire fields, (∀ f ∈ fields, ∀ b, f.Holds b → P b) → P (.mk wire fields)) :
    ∀ fields : List Field, ∀ f ∈ fields, ∀ b, f.Holds b → P b
  | [], _, hf, _, _ => absurd hf List.not_mem_nil
  | g :: fields, f, hf, b, hb => by
    rcases List.mem_cons.mp hf with hfg | hf
    · exact Field.induct step g b (hfg ▸ hb)
    · exact Field.induct_all step fields f hf b hb

theorem Field.induct (step : ∀ wire fields, (∀ f ∈ fields, ∀ b, f.Holds b → P b) → P (.mk wire fields)) :
    ∀ (f : Field) (b : Builder), f.Holds b → P b
  | .fbb (some b), _, .fbb _ => Builder.induct step b
  | .fbbs _ item, _, .fbbs _ _ idx => Builder.induct step (item idx)
end

/-! ## The phases

The fields are laid out in five phases. -/

inductive Phase where
  | scalarArrays
  | strings
  | fbbs
  | stringArrays
  | fbbArrays
  deriving DecidableEq, Repr

def Field.phase : Field → Option Phase
  | .scalar => none
  | .scalars .. => some .scalarArrays
  | .string _ => some .strings
  | .fbb _ => some .fbbs
  | .strings .. => some .stringArrays
  | .fbbs .. => some .fbbArrays

def Field.sizeIn (p : Phase) (f : Field) : Nat := if f.phase = some p then f.size else 0

def sizesIn (p : Phase) (fields : List Field) : Nat := (fields.map (Field.sizeIn p)).sum

theorem Field.size_eq_sizeIn (f : Field) :
    f.size = f.sizeIn .scalarArrays + f.sizeIn .strings + f.sizeIn .fbbs + f.sizeIn .stringArrays
      + f.sizeIn .fbbArrays := by
  unfold Field.sizeIn
  cases f with
  | scalar => rfl
  | _ => simp [Field.phase]

theorem sizes_eq_sizesIn (fields : List Field) :
    sizes fields = sizesIn .scalarArrays fields + sizesIn .strings fields + sizesIn .fbbs fields
      + sizesIn .stringArrays fields + sizesIn .fbbArrays fields := by
  induction fields with
  | nil => rfl
  | cons f fs ih =>
    have hf := f.size_eq_sizeIn
    simp only [sizes, sizesIn, List.map_cons, List.sum_cons] at ih ⊢
    omega

variable {size : Nat → Nat} {f : Field} {len dst o : Nat}

theorem dvd_sum_map {size : α → Nat} (h : ∀ a, 8 ∣ size a) (items : List α) : 8 ∣ (items.map size).sum := by
  apply List.dvd_sum
  intro n hn
  obtain ⟨a, _, rfl⟩ := List.mem_map.mp hn
  exact h a

theorem Field.dvd_size (h : ∀ b, f.Holds b → 8 ∣ b.size) : 8 ∣ f.size := by
  unfold Field.size
  split
  · exact dvd_zero 8
  · exact dvd_pad8 _
  · exact dvd_zero 8
  · exact dvd_pad8 _
  · exact dvd_zero 8
  · exact h _ (.fbb _)
  · exact dvd_add (dvd_pad8 _) (dvd_sum_map (fun _ => dvd_pad8 _) _)
  · exact dvd_add (dvd_pad8 _) (dvd_sum_map (fun idx => h _ (.fbbs _ _ idx)) _)

theorem Builder.dvd_size (b : Builder) : 8 ∣ b.size := by
  induction b using Builder.induct with
  | step wire fields h =>
  have hsizes : 8 ∣ sizes fields := by
    induction fields with
    | nil => exact dvd_zero 8
    | cons f fs ih =>
      have hf := Field.dvd_size (h f List.mem_cons_self)
      exact dvd_add hf (ih fun g hg => h g (List.mem_cons_of_mem f hg))
  exact dvd_add (dvd_pad8 _) hsizes

theorem Field.dvd_sizeIn (p : Phase) (f : Field) : 8 ∣ f.sizeIn p := by
  unfold Field.sizeIn
  split
  · exact Field.dvd_size fun b _ => b.dvd_size
  · exact dvd_zero 8

theorem dvd_sizesIn (p : Phase) (fields : List Field) : 8 ∣ sizesIn p fields := dvd_sum_map (Field.dvd_sizeIn p) fields

/-! ## Measuring yields the size -/

/-- The length after a loop of which every round adds the size of its item. -/
theorem foldl_measure {size : α → Nat} {items : List α} (hdvd : ∀ a, 8 ∣ size a)
    (hstep : ∀ a ∈ items, ∀ len, 8 ∣ len → step (u32 len) a = u32 (len + size a)) (hlen : 8 ∣ len) :
    items.foldl step (u32 len) = u32 (len + (items.map size).sum) := by
  induction items generalizing len with
  | nil => rfl
  | cons a items ih =>
    rw [foldl_cons, hstep a List.mem_cons_self len hlen,
      ih (fun b hb => hstep b (List.mem_cons_of_mem a hb)) (dvd_add hlen (hdvd a)), List.map_cons, List.sum_cons,
      add_assoc]

def measureFbb (len : Nat) : Field → Nat
  | .fbb (some b) => u32 (len + b.measure)
  | _ => len

def measureFbbArray (len : Nat) : Field → Nat
  | .fbbs count item =>
    (range count).foldl (fun len idx => u32 (len + (item idx).measure)) (addPaddingLen (u32 (len + count * 4)))
  | _ => len

theorem measureFbbs_eq_foldl (fields : List Field) (len : Nat) :
    measureFbbs len fields = fields.foldl measureFbb len := by
  induction fields generalizing len with
  | nil => rfl
  | cons f fs ih =>
    rw [foldl_cons, ← ih]
    cases f with
    | fbb value => cases value <;> rfl
    | _ => rfl

theorem measureFbbArrays_eq_foldl (fields : List Field) (len : Nat) :
    measureFbbArrays len fields = fields.foldl measureFbbArray len := by
  induction fields generalizing len with
  | nil => rfl
  | cons f fs ih =>
    rw [foldl_cons, ← ih]
    cases f <;> rfl

theorem measure_padded (hlen : 8 ∣ len) (n : Nat) : addPaddingLen (u32 (u32 len + n)) = u32 (len + pad8 n) := by
  rw [u32_add, addPaddingLen_u32, pad8_add hlen]

theorem measureFbb_eq (len : Nat) (h : ∀ b, f.Holds b → b.measure = u32 b.size) :
    measureFbb (u32 len) f = u32 (len + f.sizeIn .fbbs) := by
  cases f with
  | fbb value =>
    cases value with
    | none => rfl
    | some b =>
      show u32 (u32 len + b.measure) = u32 (len + b.size)
      rw [h b (.fbb b), u32_add, u32_add_u32]
  | _ => rfl

section

variable {len : Nat} (hlen : 8 ∣ len)
include hlen

theorem measureScalars_eq (f : Field) : measureScalars (u32 len) f = u32 (len + f.sizeIn .scalarArrays) := by
  cases f with
  | scalars count size values => exact measure_padded hlen _
  | _ => rfl

theorem measureString_eq (f : Field) : measureString (u32 len) f = u32 (len + f.sizeIn .strings) := by
  cases f with
  | string value =>
    cases value with
    | none => rfl
    | some v =>
      show addPaddingLen (u32 (u32 len + u32 (v.2 + 1))) = u32 (len + pad8 (v.2 + 1))
      rw [u32_add_u32, measure_padded hlen]
  | _ => rfl

theorem measureStrings_eq (f : Field) : measureStrings (u32 len) f = u32 (len + f.sizeIn .stringArrays) := by
  cases f with
  | strings count input =>
    have hhops : u32 (u32 len + u32 (2 * count) * 4) = u32 (u32 len + count * 8) := by
      unfold u32
      omega
    have hitem : ∀ idx ∈ range count, ∀ len, 8 ∣ len →
        addPaddingLen (u32 (u32 len + u32 (input.getLenAt idx + 1))) = u32 (len + pad8 ((input.item idx).2 + 1)) := by
      intro idx _ len hlen
      have hlenAt : u32 (input.getLenAt idx + 1) = u32 ((input.item idx).2 + 1) := u32_add _ 1
      rw [hlenAt, u32_add_u32, measure_padded hlen]
    show (range count).foldl _ (addPaddingLen (u32 (u32 len + u32 (2 * count) * 4))) = _
    rw [hhops, measure_padded hlen,
      foldl_measure (fun _ => dvd_pad8 _) hitem (dvd_add hlen (dvd_pad8 _)), Nat.add_assoc]
    rfl
  | _ => rfl

theorem measureFbbArray_eq (h : ∀ b, f.Holds b → b.measure = u32 b.size) :
    measureFbbArray (u32 len) f = u32 (len + f.sizeIn .fbbArrays) := by
  cases f with
  | fbbs count item =>
    have hitem : ∀ idx ∈ range count, ∀ len, 8 ∣ len →
        u32 (u32 len + (item idx).measure) = u32 (len + (item idx).size) := by
      intro idx _ len _
      rw [h _ (.fbbs count item idx), u32_add, u32_add_u32]
    show (range count).foldl _ (addPaddingLen (u32 (u32 len + count * 4))) = _
    rw [measure_padded hlen,
      foldl_measure (fun idx => (item idx).dvd_size) hitem (dvd_add hlen (dvd_pad8 _)), Nat.add_assoc]
    rfl
  | _ => rfl

theorem measure_phase
    (hstep : ∀ f ∈ fields, ∀ len, 8 ∣ len → step (u32 len) f = u32 (len + f.sizeIn p)) :
    fields.foldl step (u32 len) = u32 (len + sizesIn p fields) := foldl_measure (Field.dvd_sizeIn p) hstep hlen

end

theorem Builder.measure_eq (b : Builder) : b.measure = u32 b.size := by
  induction b using Builder.induct with
  | step wire fields h =>
  have hstructures : addPaddingLen
      (if 0 < relptrCount fields then u32 (u32 wire.length + relptrCount fields * 4) else u32 wire.length)
      = u32 (pad8 (wire.length + relptrCount fields * 4)) := by
    split
    · rw [u32_add, addPaddingLen_u32]
    · have hzero : relptrCount fields = 0 := by omega
      rw [hzero, addPaddingLen_u32, Nat.zero_mul, add_zero]
  have h1 := dvd_pad8 (wire.length + relptrCount fields * 4)
  have h2 := dvd_add h1 (dvd_sizesIn .scalarArrays fields)
  have h3 := dvd_add h2 (dvd_sizesIn .strings fields)
  have h4 := dvd_add h3 (dvd_sizesIn .fbbs fields)
  have h5 := dvd_add h4 (dvd_sizesIn .stringArrays fields)
  have h6 := dvd_add h5 (dvd_sizesIn .fbbArrays fields)
  simp only [Builder.measure, measureFbbs_eq_foldl, measureFbbArrays_eq_foldl, hstructures]
  rw [measure_phase h1 fun f _ _ hlen => measureScalars_eq hlen f,
    measure_phase h2 fun f _ _ hlen => measureString_eq hlen f,
    measure_phase h3 fun f hf len _ => measureFbb_eq len (h f hf),
    measure_phase h4 fun f _ _ hlen => measureStrings_eq hlen f,
    measure_phase h5 fun f hf _ hlen => measureFbbArray_eq hlen (h f hf),
    addPaddingLen_u32, pad8_of_dvd h6, Builder.size, sizes_eq_sizesIn]
  simp only [add_assoc]

/-! ## Serializing writes the size -/

open Set

/-- What is written, and where the offset goes, from an offset on. -/
structure Emits (f : Cursor → Cursor) (o o' : Nat) (S : Set Nat) : Prop where
  offset : ∀ m, (f ⟨m, o⟩).offset = o'
  fills : Fills S fun m => (f ⟨m, o⟩).mem

section

variable {f g : Cursor → Cursor} {o o' o'' dst n k addr : Nat} {S T : Set Nat}

theorem Emits.nothing (o : Nat) : Emits (fun c => c) o o ∅ := ⟨fun _ => rfl, Fills.nothing⟩

theorem Emits.eq (hf : Emits f o o' S) (m : Memory) : f ⟨m, o⟩ = ⟨(f ⟨m, o⟩).mem, o'⟩ := by
  rw [← hf.offset m]

theorem Emits.comp (hf : Emits f o o' S) (hg : Emits g o' o'' T) : Emits (fun c => g (f c)) o o'' (S ∪ T) := by
  constructor
  · intro m
    rw [hf.eq m]
    exact hg.offset _
  have hmem : (fun m => (g (f ⟨m, o⟩)).mem) = fun m => (g ⟨(f ⟨m, o⟩).mem, o'⟩).mem := by
    funext m
    rw [← hf.eq m]
  rw [hmem]
  exact hf.fills.comp hg.fills

theorem Emits.set_eq (hf : Emits f o o' S) (h : ∀ x, x ∈ S ↔ x ∈ T) : Emits f o o' T := Set.ext h ▸ hf

theorem Emits.congr (hf : Emits f o o' S) (h : ∀ m, g ⟨m, o⟩ = f ⟨m, o⟩) : Emits g o o' S := by
  constructor
  · intro m
    rw [h m]
    exact hf.offset m
  · simp only [h]
    exact hf.fills

theorem poke_emits (o addr : Nat) (n : Nat → Nat) :
    Emits (fun c => c.poke addr (n c.offset)) o o (Ico addr (addr + 4)) :=
  ⟨fun _ => rfl, write_fills addr (le32 (n o))⟩

theorem put_emits (dst : Nat) (d : Bytes) (h : o + d.length < 4294967296) :
    Emits (fun c => c.put dst d) o (o + d.length) (Ico (dst + o) (dst + o + d.length)) :=
  ⟨fun _ => u32_of_lt h, write_fills (dst + o) d⟩

theorem pad_emits (dst : Nat) (h : pad8 o < 4294967296) :
    Emits (fun c => c.pad dst) o (pad8 o) (Ico (dst + o) (dst + pad8 o)) := by
  have hlen : o + (7 - (o + 7) % 8) = pad8 o := by
    unfold pad8
    omega
  have hput := put_emits dst (replicate (7 - (o + 7) % 8) 0) (o := o) (by rw [List.length_replicate]; omega)
  rw [List.length_replicate, add_assoc, hlen] at hput
  exact hput.congr fun m => rfl

theorem skip_emits (n : Nat) (h : o + n < 4294967296) : Emits (fun c => c.skip n) o (o + n) ∅ :=
  ⟨fun _ => u32_of_lt h, Fills.nothing⟩

/-- Bytes are appended, and some that are before them may be written over. -/
def Appends (dst : Nat) (f : Cursor → Cursor) (o n : Nat) : Prop :=
  ∃ S ⊆ Ico dst (dst + o), Emits f o (o + n) (S ∪ Ico (dst + o) (dst + o + n))

theorem Appends.nothing (dst o : Nat) : Appends dst (fun c => c) o 0 :=
  ⟨∅, empty_subset _, (Emits.nothing o).set_eq (by simp)⟩

theorem Appends.comp (hf : Appends dst f o n) (hg : Appends dst g (o + n) k) :
    Appends dst (fun c => g (f c)) o (n + k) := by
  obtain ⟨S, hS, hf⟩ := hf
  obtain ⟨T, hT, hg⟩ := hg
  refine ⟨S ∪ T ∩ Ico dst (dst + o), union_subset hS inter_subset_right, ?_⟩
  rw [← add_assoc]
  refine (hf.comp hg).set_eq fun x => ?_
  grind

theorem Appends.congr (hf : Appends dst f o n) (h : ∀ m, g ⟨m, o⟩ = f ⟨m, o⟩) : Appends dst g o n := by
  obtain ⟨S, hS, hf⟩ := hf
  exact ⟨S, hS, hf.congr h⟩

theorem Emits.appends (hf : Emits f o (o + n) (Ico (dst + o) (dst + o + n))) : Appends dst f o n :=
  ⟨∅, empty_subset _, hf.set_eq fun x => by simp⟩

/-- At the beginning there is nothing to write over. -/
theorem Appends.emits (hf : Appends dst f 0 n) : Emits f 0 n (Ico dst (dst + n)) := by
  obtain ⟨S, hS, hf⟩ := hf
  rw [zero_add] at hf
  refine hf.set_eq fun x => ?_
  have hx : x ∈ S → dst ≤ x ∧ x < dst + 0 := fun h => hS h
  simp only [mem_union, add_zero, or_iff_right_iff_imp]
  intro hxS
  have := hx hxS
  omega

theorem poke_appends (hlo : dst ≤ addr) (hhi : addr + 4 ≤ dst + o) (n : Nat → Nat) :
    Appends dst (fun c => c.poke addr (n c.offset)) o 0 := by
  refine ⟨Ico addr (addr + 4), Ico_subset_Ico hlo hhi, (poke_emits o addr n).set_eq fun x => ?_⟩
  simp

/-- The offset goes into a relptr, and the bytes are appended. -/
theorem Emits.appends_at (hf : Emits f o (o + n) (Ico (dst + o) (dst + o + n))) (hlo : dst ≤ addr)
    (hhi : addr + 4 ≤ dst + o) : Appends dst (fun c => f (c.poke addr c.offset)) o n := by
  have hcomp := (poke_appends hlo hhi id).comp hf.appends
  rw [zero_add] at hcomp
  exact hcomp

theorem pad_appends_nothing (dst : Nat) (ho : 8 ∣ o) (h : o < 4294967296) : Appends dst (fun c => c.pad dst) o 0 := by
  have hpad := pad8_of_dvd ho
  have hemits := pad_emits dst (by rwa [hpad])
  rw [hpad] at hemits
  exact hemits.appends

/-- The bytes at a pointer with a padding after them. -/
theorem chars_emits (dst : Nat) (s : Bytes) (ho : 8 ∣ o) (h : o + pad8 n < 4294967296) :
    Emits (fun c => (c.put dst (chars s (u32 n))).pad dst) o (o + pad8 n) (Ico (dst + o) (dst + o + pad8 n)) := by
  have hpad := pad8_add ho n
  have hle := le_pad8 n
  have hlen : (chars s (u32 n)).length = n := by rw [chars, List.takeD_length, u32_of_lt (by omega)]
  have hput := put_emits dst (chars s (u32 n)) (o := o) (by omega)
  rw [hlen] at hput
  have hcomp := hput.comp (pad_emits dst (by omega))
  rw [hpad] at hcomp
  refine hcomp.set_eq fun x => ?_
  simp only [mem_union, mem_Ico]
  omega

theorem chars_appends (hlo : dst ≤ addr) (hhi : addr + 4 ≤ dst + o) (s : Bytes) (ho : 8 ∣ o)
    (h : o + pad8 n < 4294967296) :
    Appends dst (fun c => ((c.poke addr c.offset).put dst (chars s (u32 n))).pad dst) o (pad8 n) :=
  (chars_emits dst s ho h).appends_at hlo hhi

end

section

variable {dst relptrs i o width : Nat} {step : Cursor → Nat → Cursor} {f : Field}

/-- The rounds of a loop that puts an entry of a list of hops and an item at the offset. -/
theorem foldl_emits (hdvd : ∀ idx, 8 ∣ size idx)
    (hstep : ∀ idx o, 8 ∣ o → o + size idx < 4294967296 → Emits (fun c => step c idx) o (o + size idx)
      (Ico (hops + idx * width) (hops + idx * width + width) ∪ Ico (dst + o) (dst + o + size idx)))
    (ho : 8 ∣ o) (hsize : o + ((range n).map size).sum < 4294967296) :
    Emits (fun c => (range n).foldl step c) o (o + ((range n).map size).sum)
      (Ico hops (hops + n * width) ∪ Ico (dst + o) (dst + o + ((range n).map size).sum)) := by
  induction n with
  | zero => exact (Emits.nothing o).set_eq (by simp)
  | succ n ih =>
    simp only [List.range_succ, List.map_append, List.sum_append, List.foldl_append, List.map_cons, List.map_nil,
      List.sum_cons, List.sum_nil] at hsize ⊢
    have hdvd' := dvd_add ho (dvd_sum_map hdvd (range n))
    have hcomp := (ih (by omega)).comp (hstep n _ hdvd' (by omega))
    rw [add_assoc] at hcomp
    refine hcomp.set_eq fun x => ?_
    simp only [mem_union, mem_Ico, Nat.succ_mul]
    omega

/-- An array with a list of hops. -/
theorem array_appends (hdvd : ∀ idx, 8 ∣ size idx)
    (hstep : ∀ idx o', 8 ∣ o' → o' + size idx < 4294967296 → Emits (fun c => step c idx) o' (o' + size idx)
      (Ico (dst + o + idx * width) (dst + o + idx * width + width) ∪ Ico (dst + o') (dst + o' + size idx)))
    (hlo : dst ≤ relptrs) (hhi : relptrs + (i + 1) * 4 ≤ dst + o) (ho : 8 ∣ o)
    (hsize : o + (pad8 (count * width) + ((range count).map size).sum) < 4294967296) :
    Appends dst (fun c => (range count).foldl step
      (((c.poke (relptrs + i * 4) c.offset).skip (count * width)).pad dst)) o
      (pad8 (count * width) + ((range count).map size).sum) := by
  have hpad := pad8_add ho (count * width)
  have hle := le_pad8 (count * width)
  have hdvd' := dvd_add ho (dvd_pad8 (count * width))
  refine ⟨Ico (relptrs + i * 4) (relptrs + i * 4 + 4), Ico_subset_Ico (by omega) (by omega), ?_⟩
  have hhead := ((poke_emits o (relptrs + i * 4) id).comp (skip_emits (count * width) (by omega))).comp
    (pad_emits dst (by omega))
  rw [hpad] at hhead
  have hloop : Emits (fun c => (range count).foldl step c) (o + pad8 (count * width))
      (o + pad8 (count * width) + ((range count).map size).sum) _ := foldl_emits hdvd hstep hdvd' (by omega)
  rw [← add_assoc]
  refine (hhead.comp hloop).set_eq fun x => ?_
  simp only [mem_union, mem_Ico, mem_empty_iff_false, or_false]
  omega

theorem serializeItem_emits (input : StringInput) (hops idx : Nat) (ho : 8 ∣ o)
    (hsize : o + pad8 ((input.item idx).2 + 1) < 4294967296) :
    Emits (fun c => serializeItem dst input hops c idx) o (o + pad8 ((input.item idx).2 + 1))
      (Ico (hops + idx * 8) (hops + idx * 8 + 8) ∪ Ico (dst + o) (dst + o + pad8 ((input.item idx).2 + 1))) := by
  have hle := le_pad8 ((input.item idx).2 + 1)
  have hu32 : u32 (input.item idx).2 = (input.item idx).2 := u32_of_lt (by omega)
  have hcomp := ((poke_emits o (hops + idx * 8) id).comp
    (poke_emits o (hops + idx * 8 + 4) fun _ => (input.item idx).2)).comp (chars_emits dst (input.item idx).1 ho hsize)
  refine (hcomp.congr fun m => ?_).set_eq fun x => ?_
  · simp only [serializeItem, StringInput.getWithLenAt, hu32, id_eq]
  · simp only [mem_union, mem_Ico]
    omega

/-- In a phase, the step for a field appends what the field takes in it. -/
def Phase.Appends (p : Phase) (dst relptrs : Nat) (step : Nat → Field → Cursor → Cursor) (f : Field) : Prop :=
  ∀ {i o}, relptrs + (i + f.relptrs) * 4 ≤ dst + o → 8 ∣ o → o + f.sizeIn p < 4294967296 →
    Fbb.Appends dst (step i f) o (f.sizeIn p)

variable (hlo : dst ≤ relptrs)
include hlo

theorem serializeScalars_appends : Phase.Appends .scalarArrays dst relptrs (serializeScalars dst relptrs) f := by
  intro i o hhi ho hsize
  cases f with
  | scalars count size values =>
    change relptrs + (i + 1) * 4 ≤ dst + o at hhi
    change Appends dst _ o (pad8 (count * size))
    rcases Nat.eq_zero_or_pos count with rfl | hcount
    · rw [Nat.zero_mul]
      exact poke_appends (by omega) (by omega) fun _ => 0
    · exact (chars_appends (by omega) (by omega) values ho hsize).congr fun m => if_pos hcount
  | _ => exact Appends.nothing dst o

theorem serializeString_appends : Phase.Appends .strings dst relptrs (serializeString dst relptrs) f := by
  intro i o hhi ho hsize
  cases f with
  | string value =>
    change relptrs + (i + 1) * 4 ≤ dst + o at hhi
    cases value with
    | none => exact poke_appends (by omega) (by omega) fun _ => 0
    | some v =>
      exact chars_appends (by omega) (by omega) v.1 ho hsize
  | _ => exact Appends.nothing dst o

theorem serializeStrings_appends : Phase.Appends .stringArrays dst relptrs (serializeStrings dst relptrs) f := by
  intro i o hhi ho hsize
  cases f with
  | strings count input =>
    change relptrs + (i + 1) * 4 ≤ dst + o at hhi
    change o + (pad8 (count * 8) + ((range count).map fun idx => pad8 ((input.item idx).2 + 1)).sum)
      < 4294967296 at hsize
    rcases Nat.eq_zero_or_pos count with rfl | hcount
    · exact poke_appends (by omega) (by omega) fun _ => 0
    · have hle := le_pad8 (count * 8)
      have hhops : u32 (2 * count) * 4 = count * 8 := by
        rw [u32_of_lt (by omega)]
        omega
      refine (array_appends (fun _ => dvd_pad8 _) (fun idx o' ho' h => serializeItem_emits input (dst + o) idx ho' h) hlo
        hhi ho hsize).congr fun m => ?_
      rw [← hhops]
      exact if_pos hcount
  | _ => exact Appends.nothing dst o

end

/-! ## Messages in messages -/

structure Builder.Serializes (b : Builder) (dst : Nat) : Prop where
  offset : ∀ m, (b.serialize dst m).offset = b.size
  fills : Fills (Ico dst (dst + b.size)) fun m => (b.serialize dst m).mem

/-- A message at the offset of another one. -/
def Cursor.sub (c : Cursor) (dst : Nat) (b : Builder) : Cursor :=
  ⟨(b.serialize (dst + c.offset) c.mem).mem, u32 (c.offset + (b.serialize (dst + c.offset) c.mem).offset)⟩

def serializeFbb (dst relptrs i : Nat) : Field → Cursor → Cursor
  | .fbb (some b), c => (c.poke (relptrs + i * 4) c.offset).sub dst b
  | .fbb none, c => c.poke (relptrs + i * 4) 0
  | _, c => c

def serializeFbbArray (dst relptrs i : Nat) : Field → Cursor → Cursor
  | .fbbs count item, c =>
    if count > 0 then
      (range count).foldl (fun d idx => (d.poke (dst + c.offset + idx * 4) d.offset).sub dst (item idx))
        (((c.poke (relptrs + i * 4) c.offset).skip (count * 4)).pad dst)
    else c.poke (relptrs + i * 4) 0
  | _, c => c

theorem serializeFbbs_eq_forFields (dst relptrs i : Nat) (fields : List Field) (c : Cursor) :
    serializeFbbs dst relptrs i fields c = forFields (serializeFbb dst relptrs) i fields c := by
  induction fields generalizing i c with
  | nil => rfl
  | cons f fs ih =>
    rw [forFields, ← ih]
    cases f with
    | fbb value => cases value <;> rfl
    | _ => rfl

theorem serializeFbbArrays_eq_forFields (dst relptrs i : Nat) (fields : List Field) (c : Cursor) :
    serializeFbbArrays dst relptrs i fields c = forFields (serializeFbbArray dst relptrs) i fields c := by
  induction fields generalizing i c with
  | nil => rfl
  | cons f fs ih =>
    rw [forFields, ← ih]
    cases f <;> rfl

theorem sub_emits (h : b.Serializes (dst + o)) (hsize : o + b.size < 4294967296) :
    Emits (fun c => c.sub dst b) o (o + b.size) (Ico (dst + o) (dst + o + b.size)) := by
  refine ⟨fun m => ?_, h.fills⟩
  show u32 (o + (b.serialize (dst + o) m).offset) = o + b.size
  rw [h.offset, u32_of_lt hsize]

section

variable {dst relptrs i o : Nat} {f : Field} (hlo : dst ≤ relptrs)
  (h : ∀ b, f.Holds b → b.size < 4294967296 → ∀ dst, b.Serializes dst)
include hlo h

theorem serializeFbb_appends : Phase.Appends .fbbs dst relptrs (serializeFbb dst relptrs) f := by
  intro i o hhi ho hsize
  cases f with
  | fbb value =>
    change relptrs + (i + 1) * 4 ≤ dst + o at hhi
    cases value with
    | none => exact poke_appends (by omega) (by omega) fun _ => 0
    | some b =>
      change o + b.size < 4294967296 at hsize
      exact (sub_emits (h b (.fbb b) (by omega) (dst + o)) hsize).appends_at (by omega) (by omega)
  | _ => exact Appends.nothing dst o

theorem serializeFbbArray_appends : Phase.Appends .fbbArrays dst relptrs (serializeFbbArray dst relptrs) f := by
  intro i o hhi ho hsize
  cases f with
  | fbbs count item =>
    change relptrs + (i + 1) * 4 ≤ dst + o at hhi
    rcases Nat.eq_zero_or_pos count with rfl | hcount
    · exact poke_appends (by omega) (by omega) fun _ => 0
    · have hitem : ∀ idx o', 8 ∣ o' → o' + (item idx).size < 4294967296 →
          Emits (fun c => (c.poke (dst + o + idx * 4) c.offset).sub dst (item idx)) o' (o' + (item idx).size)
            (Ico (dst + o + idx * 4) (dst + o + idx * 4 + 4) ∪ Ico (dst + o') (dst + o' + (item idx).size)) := by
        intro idx o' _ hsize'
        have hsub := sub_emits (h _ (.fbbs count item idx) (by omega) (dst + o')) hsize'
        exact (poke_emits o' (dst + o + idx * 4) id).comp hsub
      exact (array_appends (fun idx => (item idx).dvd_size) hitem hlo hhi ho hsize).congr fun m => if_pos hcount
  | _ => exact Appends.nothing dst o

end

/-! ## A whole message -/

/-- A phase appends what the fields take in it. -/
theorem forFields_appends
    (hstep : ∀ f ∈ fields, p.Appends dst relptrs step f)
    (hhi : relptrs + (i + relptrCount fields) * 4 ≤ dst + o) (ho : 8 ∣ o)
    (hsize : o + sizesIn p fields < 4294967296) :
    Appends dst (forFields step i fields) o (sizesIn p fields) := by
  induction fields generalizing i o with
  | nil => exact Appends.nothing dst o
  | cons f fs ih =>
    have hcount : relptrCount (f :: fs) = f.relptrs + relptrCount fs := by simp [relptrCount]
    have hsizes : sizesIn p (f :: fs) = f.sizeIn p + sizesIn p fs := by simp [sizesIn]
    have hfirst := hstep f List.mem_cons_self (i := i) (by omega) ho (by omega)
    exact hfirst.comp (ih (fun g hg => hstep g (List.mem_cons_of_mem f hg)) (by omega)
      (dvd_add ho (f.dvd_sizeIn p)) (by omega))

theorem serializeStructures_appends (wire : Bytes) (fields : List Field) (dst : Nat)
    (hsize : pad8 (wire.length + relptrCount fields * 4) < 4294967296) :
    Appends dst (serializeStructures wire fields dst) 0 (pad8 (wire.length + relptrCount fields * 4)) := by
  have hle := le_pad8 (wire.length + relptrCount fields * 4)
  have hwire : Emits (fun c => c.put dst wire) 0 wire.length (Ico dst (dst + wire.length)) := by
    have hput := put_emits dst wire (o := 0) (by omega)
    rwa [zero_add] at hput
  have hboth : Emits (fun c => if 0 < relptrCount fields then
        (c.put dst wire).put dst (replicate (relptrCount fields * 4) 0) else c.put dst wire) 0
      (wire.length + relptrCount fields * 4) (Ico dst (dst + (wire.length + relptrCount fields * 4))) := by
    by_cases hcount : 0 < relptrCount fields
    · simp only [if_pos hcount]
      have hput := put_emits dst (replicate (relptrCount fields * 4) 0) (o := wire.length)
        (by rw [List.length_replicate]; omega)
      rw [List.length_replicate] at hput
      refine (hwire.comp hput).set_eq fun x => ?_
      simp only [mem_union, mem_Ico]
      omega
    · have hzero : relptrCount fields = 0 := by omega
      simp only [hzero]
      exact hwire
  have hcomp := hboth.comp (pad_emits dst hsize)
  apply Emits.appends
  rw [zero_add]
  refine hcomp.set_eq fun x => ?_
  simp only [mem_union, mem_Ico]
  omega

theorem Builder.serializes (b : Builder) (hsize : b.size < 4294967296) (dst : Nat) : b.Serializes dst := by
  induction b using Builder.induct generalizing dst with
  | step wire fields h =>
  have heq : (Builder.mk wire fields).size = pad8 (wire.length + relptrCount fields * 4) + sizesIn .scalarArrays fields
      + sizesIn .strings fields + sizesIn .fbbs fields + sizesIn .stringArrays fields + sizesIn .fbbArrays fields := by
    rw [Builder.size, sizes_eq_sizesIn]
    omega
  have hle := le_pad8 (wire.length + relptrCount fields * 4)
  have hlo : dst ≤ dst + wire.length := by omega
  obtain ⟨w, hw⟩ : ∃ w, w = pad8 (wire.length + relptrCount fields * 4) := ⟨_, rfl⟩
  have h1 : 8 ∣ w := hw ▸ dvd_pad8 _
  have h2 := dvd_add h1 (dvd_sizesIn .scalarArrays fields)
  have h3 := dvd_add h2 (dvd_sizesIn .strings fields)
  have h4 := dvd_add h3 (dvd_sizesIn .fbbs fields)
  have h5 := dvd_add h4 (dvd_sizesIn .stringArrays fields)
  have h6 := dvd_add h5 (dvd_sizesIn .fbbArrays fields)
  rw [heq, ← hw] at hsize
  have hstructures := serializeStructures_appends wire fields dst (by omega)
  rw [← hw] at hstructures
  have hscalars : Appends dst (forFields (serializeScalars dst (dst + wire.length)) 0 fields) w
      (sizesIn .scalarArrays fields) :=
    forFields_appends (fun f _ => serializeScalars_appends hlo) (by omega) h1 (by omega)
  have hstrings : Appends dst (forFields (serializeString dst (dst + wire.length)) 0 fields) _
      (sizesIn .strings fields) :=
    forFields_appends (fun f _ => serializeString_appends hlo) (by omega) h2 (by omega)
  have hfbbs : Appends dst (forFields (serializeFbb dst (dst + wire.length)) 0 fields) _ (sizesIn .fbbs fields) :=
    forFields_appends (fun f hf => serializeFbb_appends hlo (h f hf)) (by omega) h3 (by omega)
  have hstringArrays : Appends dst (forFields (serializeStrings dst (dst + wire.length)) 0 fields) _
      (sizesIn .stringArrays fields) :=
    forFields_appends (fun f _ => serializeStrings_appends hlo) (by omega) h4 (by omega)
  have hfbbArrays : Appends dst (forFields (serializeFbbArray dst (dst + wire.length)) 0 fields) _
      (sizesIn .fbbArrays fields) :=
    forFields_appends (fun f hf => serializeFbbArray_appends hlo (h f hf)) (by omega) h5 (by omega)
  have hpad : Appends dst (fun c => c.pad dst) _ 0 := pad_appends_nothing dst h6 hsize
  have hphases := hscalars.comp (hstrings.comp (hfbbs.comp (hstringArrays.comp (hfbbArrays.comp hpad))))
  rw [← zero_add w] at hphases
  have hall := hstructures.comp hphases
  simp only [← add_assoc, hw, ← heq] at hall
  have hemits := hall.emits
  constructor
  · intro m
    simp only [Builder.serialize, serializeFbbs_eq_forFields, serializeFbbArrays_eq_forFields]
    exact hemits.offset m
  · simp only [Builder.serialize, serializeFbbs_eq_forFields, serializeFbbArrays_eq_forFields]
    exact hemits.fills

/-- Measuring a message gives the number of bytes that serializing writes and returns, a multiple
    of 8. Only those bytes change, and all of them are written: what they become does not depend on
    what they were. -/
theorem serialize_writes_measure (b : Builder) (hsize : b.size < 4294967296) (dst : Nat) (mem : Memory) :
    b.measure = b.size ∧ (b.serialize dst mem).offset = b.measure ∧ 8 ∣ b.measure
      ∧ (∀ x, x < dst ∨ dst + b.measure ≤ x → (b.serialize dst mem).mem x = mem x)
      ∧ ∀ mem' x, dst ≤ x → x < dst + b.measure → (b.serialize dst mem).mem x = (b.serialize dst mem').mem x := by
  have hmeasure : b.measure = b.size := by rw [b.measure_eq, u32_of_lt hsize]
  have hserializes := b.serializes hsize dst
  rw [hmeasure]
  refine ⟨rfl, hserializes.offset mem, b.dvd_size, ?_, ?_⟩
  · intro x hx
    apply hserializes.fills.frame
    rw [mem_Ico]
    omega
  · intro mem' x hlo hhi
    exact hserializes.fills.fresh mem mem' x ⟨hlo, hhi⟩

/-- A message with fields of every kind, some of them absent or empty. -/
def everyKind : Builder :=
  .mk [9, 0, 0, 0, 3, 0, 0, 0, 1]
    [.scalar, .scalars 3 4 [1, 0, 0, 0, 2, 0, 0, 0, 3], .string none, .string (some ([102, 98], 2)), .fbb none,
      .fbb (some (.mk [1, 0, 0, 0] [.string (some ([97, 98, 99, 100, 101, 102, 103], 7))])),
      .strings 2 (.array [[97], [98, 99]]), .strings 1 (.cstringViews [([97, 98], 2)]), .strings 0 (.cxxStrings []),
      .strings 3 (.callback fun idx => (replicate (4 * idx) 120, 4 * idx)),
      .fbbs 3 fun idx => .mk (replicate (idx + 4) 7) [.scalars idx 8 []]]

theorem serialize_writes_measure_everyKind :
    everyKind.measure = 280 ∧ (everyKind.serialize 16 fun _ => 255).offset = everyKind.measure := by
  have hsize : everyKind.size = 280 := by decide
  have h := serialize_writes_measure everyKind (by rw [hsize]; decide) 16 fun _ => 255
  exact ⟨h.1.trans hsize, h.2.1⟩

end Firebuild.Fbb
