import OneChain.Lib.Checked
import Mathlib.Data.Vector.Basic
import Mathlib.Tactic.Ring

/-!
# Binary canonical serialization

A value is written as its fields, one after the other, without names, tags or padding: integers
little-endian, a vector behind its length, the length in base 128. A reader takes the fields off
the front of its input, and `fromBytes` accepts if nothing is left.

Writer and reader need not be written against the same declaration. `Mirror α β` says that what is
written for an `α` is read back as a `β`, with a given image; a structure mirrors another one if its
fields do, one by one and in order (`ReadsFields`).
-/

namespace OneChain.Lib.Bcs

open List

abbrev Bytes := List UInt8

/-- How reading fails. -/
inductive Error
  | eof
  | expectedBoolean
  | expectedOption
  | nonCanonicalUleb128
  | integerOverflow
  | exceededMaxLen (length : ℕ)
  | utf8
  | remainingInput
  deriving DecidableEq, Repr

/-- A reader takes a value off the front of its input. -/
abbrev De := StateT Bytes (Except Error)

variable {α β γ : Type}

namespace De

def next : De UInt8
  | [] => .error .eof
  | b :: rest => .ok (b, rest)

def fail (e : Error) : De α := fun _ => .error e

/-- Read the same thing `n` times. -/
def times (d : De α) : ℕ → De (List α)
  | 0 => pure []
  | n + 1 => do
    let a ← d
    let as ← d.times n
    return a :: as

end De

/-! ## What a reader reads -/

/-- From an input that starts with `bytes`, `d` takes these and returns `a`. -/
def Reads (d : De α) (bytes : Bytes) (a : α) : Prop := ∀ rest, d (bytes ++ rest) = .ok (a, rest)

namespace Reads

variable {d : De α} {bytes bytes' : Bytes} {a : α} {b : β}

theorem pure (a : α) : Reads (Pure.pure a) [] a := fun _ => rfl

theorem next (b : UInt8) : Reads De.next [b] b := fun _ => rfl

theorem bind {k : α → De β} (h : Reads d bytes a) (hk : Reads (k a) bytes' b) :
    Reads (d >>= k) (bytes ++ bytes') b := by
  intro rest
  rw [append_assoc]
  change (d (bytes ++ (bytes' ++ rest)) >>= fun p => k p.1 p.2) = _
  rw [h, ok_bind, hk]

theorem map {f : α → β} (h : Reads d bytes a) : Reads (f <$> d) bytes (f a) := by
  intro rest
  change (d (bytes ++ rest) >>= fun p => Except.ok (f p.1, p.2)) = _
  rw [h, ok_bind]

end Reads

/-! ## Integers -/

def littleEndian : ℕ → ℕ → Bytes
  | 0, _ => []
  | k + 1, n => n.toUInt8 :: littleEndian k (n / 256)

def readLittleEndian : ℕ → De ℕ
  | 0 => pure 0
  | k + 1 => do
    let b ← De.next
    let n ← readLittleEndian k
    return b.toNat + 256 * n

theorem reads_littleEndian (k n : ℕ) (h : n < 256 ^ k) :
    Reads (readLittleEndian k) (littleEndian k n) n := by
  induction k generalizing n with
  | zero =>
    have hz : n = 0 := by simpa using h
    subst hz
    exact .pure 0
  | succ k ih =>
    have hre : n / 256 < 256 ^ k := by
      apply Nat.div_lt_of_lt_mul
      rwa [← pow_succ']
    have hsum : n.toUInt8.toNat + 256 * (n / 256) = n := by
      exact Nat.mod_add_div n 256
    have hr := (Reads.next n.toUInt8).bind (k := fun b => do
      let n ← readLittleEndian k
      return b.toNat + 256 * n) ((ih _ hre).bind (.pure _))
    rw [hsum, append_nil] at hr
    exact hr

/-! ## Lengths -/

/-- Base 128, the lowest digit first; every byte but the last has its highest bit set. -/
def uleb128 : ℕ → ℕ → Bytes
  | 0, _ => []
  | k + 1, n => if n < 128 then [n.toUInt8] else (n % 128 + 128).toUInt8 :: uleb128 k (n / 128)

/-- What the last digit makes of a number: a leading zero and more than 32 bits are refused. -/
def lastDigit (shift value digit : ℕ) : De ℕ :=
  if 0 < shift ∧ digit = 0 then De.fail .nonCanonicalUleb128
  else if value < 2 ^ 32 then pure value else De.fail .integerOverflow

def readUleb128 : ℕ → ℕ → ℕ → De ℕ
  | 0, _, _ => De.fail .integerOverflow
  | k + 1, shift, value => do
    let byte ← De.next
    let digit := byte.toNat % 128
    if digit = byte.toNat then lastDigit shift (value + digit * 2 ^ shift) digit
    else readUleb128 k (shift + 7) (value + digit * 2 ^ shift)

theorem readUleb128_last {k shift value n : ℕ} (hn : n < 128) (hpos : 0 < shift → 0 < n)
    (hv : value + n * 2 ^ shift < 2 ^ 32) :
    Reads (readUleb128 (k + 1) shift value) [n.toUInt8] (value + n * 2 ^ shift) := by
  have hb : n.toUInt8.toNat = n := by simp; omega
  apply Reads.bind (.next n.toUInt8)
  rw [hb, Nat.mod_eq_of_lt hn, if_pos rfl, lastDigit, if_neg (by omega), if_pos hv]
  exact .pure _

/-- The digits are read back, whatever was read before them. -/
theorem reads_uleb128 (k shift value n : ℕ) (hn : n < 128 ^ (k + 1)) (hpos : 0 < shift → 0 < n)
    (hv : value + n * 2 ^ shift < 2 ^ 32) :
    Reads (readUleb128 (k + 1) shift value) (uleb128 (k + 1) n) (value + n * 2 ^ shift) := by
  induction k generalizing shift value n with
  | zero =>
    rw [uleb128, if_pos (by simpa using hn)]
    exact readUleb128_last (by simpa using hn) hpos hv
  | succ k ih =>
    rw [uleb128]
    by_cases hl : n < 128
    · rw [if_pos hl]
      exact readUleb128_last hl hpos hv
    · rw [if_neg hl]
      have hb : (n % 128 + 128).toUInt8.toNat = n % 128 + 128 := by simp; omega
      have hd : (n % 128 + 128) % 128 = n % 128 := by omega
      -- the rest of the number stands seven bits higher
      have hsum : value + n % 128 * 2 ^ shift + n / 128 * 2 ^ (shift + 7) =
          value + n * 2 ^ shift := by
        have hs : n % 128 * 2 ^ shift + n / 128 * 2 ^ (shift + 7) =
            (n % 128 + 128 * (n / 128)) * 2 ^ shift := by ring
        rw [Nat.add_assoc, hs, Nat.mod_add_div]
      have hr := ih (shift + 7) (value + n % 128 * 2 ^ shift) (n / 128)
        (by apply Nat.div_lt_of_lt_mul; rwa [← pow_succ']) (by omega) (by rwa [hsum])
      rw [hsum] at hr
      apply Reads.bind (.next (n % 128 + 128).toUInt8)
      rw [hb, hd, if_neg (by omega)]
      exact hr

/-- The longest vector that is written, and read. -/
def maxSequenceLength : ℕ := 2 ^ 31 - 1

def lengthBytes (n : ℕ) : Option Bytes :=
  if n ≤ maxSequenceLength then some (uleb128 5 n) else none

def checkLength (n : ℕ) : De ℕ :=
  if maxSequenceLength < n then De.fail (.exceededMaxLen n) else pure n

def readLength : De ℕ := do
  let n ← readUleb128 5 0 0
  checkLength n

variable {bytes : Bytes}

theorem reads_lengthBytes {n : ℕ} (h : bytes ∈ lengthBytes n) : Reads readLength bytes n := by
  unfold lengthBytes at h
  by_cases hn : n ≤ maxSequenceLength
  · rw [if_pos hn, Option.mem_some_iff] at h
    subst h
    rw [← append_nil (uleb128 5 n)]
    have hmax : maxSequenceLength = 2147483647 := rfl
    apply Reads.bind
    · simpa using reads_uleb128 4 0 0 n (by omega) (by omega) (by omega)
    · rw [checkLength, if_neg (by omega)]
      exact .pure n
  · rw [if_neg hn] at h
    cases h

/-! ## Types that are written and types that are read -/

class ToBcs (α : Type) where
  toBcs : α → Option Bytes

class FromBcs (α : Type) where
  fromBcs : De α

export ToBcs (toBcs)
export FromBcs (fromBcs)

/-- What is written for an `α` is read back as a `β`. -/
class Mirror (α β : Type) [ToBcs α] [FromBcs β] where
  image : α → β
  reads : ∀ a, ∀ bytes ∈ toBcs a, Reads (fromBcs : De β) bytes (image a)

export Mirror (image)

/-- Fields are written one after the other. -/
def fields : List (Option Bytes) → Option Bytes
  | [] => some []
  | e :: es => do
    let bytes ← e
    let rest ← fields es
    return bytes ++ rest

theorem mem_fields_cons {e : Option Bytes} {es : List (Option Bytes)} :
    bytes ∈ fields (e :: es) ↔ ∃ first ∈ e, ∃ rest ∈ fields es, bytes = first ++ rest := by
  cases e <;> cases hes : fields es <;> simp [fields, hes, eq_comm]

/-- `d` reads these fields and returns `b`. -/
def ReadsFields (d : De β) (es : List (Option Bytes)) (b : β) : Prop :=
  ∀ bytes ∈ fields es, Reads d bytes b

namespace ReadsFields

theorem done (b : β) : ReadsFields (pure b) [] b := by
  intro bytes h
  cases h
  exact .pure b

theorem field [ToBcs α] [FromBcs β] [Mirror α β] (a : α) {k : β → De γ}
    {es : List (Option Bytes)} {c : γ} (h : ReadsFields (k (image a)) es c) :
    ReadsFields (fromBcs >>= k) (toBcs a :: es) c := by
  intro bytes hb
  obtain ⟨first, hf, rest, hr, rfl⟩ := mem_fields_cons.1 hb
  exact (Mirror.reads a first hf).bind (h rest hr)

end ReadsFields

/-! ## The basic types -/

instance : ToBcs UInt8 := ⟨fun b => some [b]⟩

instance : FromBcs UInt8 := ⟨De.next⟩

instance : Mirror UInt8 UInt8 where
  image b := b
  reads b bytes h := by
    cases h
    exact .next b

instance : ToBcs UInt16 := ⟨fun n => some (littleEndian 2 n.toNat)⟩

instance : FromBcs UInt16 := ⟨UInt16.ofNat <$> readLittleEndian 2⟩

instance : Mirror UInt16 UInt16 where
  image n := n
  reads n bytes h := by
    cases h
    have hread := (reads_littleEndian 2 n.toNat n.toNat_lt).map (f := UInt16.ofNat)
    rwa [UInt16.ofNat_toNat] at hread

instance : ToBcs UInt64 := ⟨fun n => some (littleEndian 8 n.toNat)⟩

instance : FromBcs UInt64 := ⟨UInt64.ofNat <$> readLittleEndian 8⟩

instance : Mirror UInt64 UInt64 where
  image n := n
  reads n bytes h := by
    cases h
    have hread := (reads_littleEndian 8 n.toNat n.toNat_lt).map (f := UInt64.ofNat)
    rwa [UInt64.ofNat_toNat] at hread

instance : ToBcs Bool := ⟨fun b => some [if b then 1 else 0]⟩

def boolOfByte (b : UInt8) : De Bool :=
  if b = 0 then pure false else if b = 1 then pure true else De.fail .expectedBoolean

instance : FromBcs Bool := ⟨De.next >>= boolOfByte⟩

instance : Mirror Bool Bool where
  image b := b
  reads b bytes h := by
    cases h
    cases b with
    | false => exact (Reads.next 0).bind (.pure false)
    | true => exact (Reads.next 1).bind (.pure true)

/-- A fixed number of bytes, without a length. -/
instance (n : ℕ) : ToBcs (List.Vector UInt8 n) := ⟨fun v => some v.toList⟩

def readArray : (n : ℕ) → De (List.Vector UInt8 n)
  | 0 => pure .nil
  | n + 1 => do
    let b ← De.next
    let v ← readArray n
    return b ::ᵥ v

instance (n : ℕ) : FromBcs (List.Vector UInt8 n) := ⟨readArray n⟩

theorem reads_readArray {n : ℕ} (v : List.Vector UInt8 n) : Reads (readArray n) v.toList v := by
  induction n with
  | zero =>
    rw [v.eq_nil]
    exact .pure _
  | succ n ih =>
    have hr := (Reads.next v.head).bind (k := fun b => do
      let v ← readArray n
      return b ::ᵥ v) ((ih v.tail).bind (.pure _))
    rw [append_nil, singleton_append, ← List.Vector.toList_cons, List.Vector.cons_head_tail] at hr
    exact hr

instance (n : ℕ) : Mirror (List.Vector UInt8 n) (List.Vector UInt8 n) where
  image v := v
  reads v bytes h := by
    cases h
    exact reads_readArray v

/-! ## Vectors, options and text -/

instance [ToBcs α] : ToBcs (List α) := ⟨fun l => fields (lengthBytes l.length :: l.map toBcs)⟩

instance [FromBcs α] : FromBcs (List α) := ⟨readLength >>= De.times fromBcs⟩

theorem reads_times [ToBcs α] [FromBcs β] [Mirror α β] (l : List α) :
    ReadsFields (De.times (fromBcs : De β) l.length) (l.map toBcs) (l.map image) := by
  induction l with
  | nil => exact .done _
  | cons a l ih =>
    intro bytes hb
    obtain ⟨first, hf, rest, hre, rfl⟩ := mem_fields_cons.1 hb
    have hr := (ih rest hre).bind (k := fun bs => pure (image a :: bs)) (.pure _)
    rw [append_nil] at hr
    exact (Mirror.reads a first hf).bind hr

instance [ToBcs α] [FromBcs β] [Mirror α β] : Mirror (List α) (List β) where
  image l := l.map image
  reads l bytes h := by
    obtain ⟨first, hfirst, rest, hrest, rfl⟩ := mem_fields_cons.1 h
    exact (reads_lengthBytes hfirst).bind (reads_times l rest hrest)

/-- What follows the tag of an option. -/
def readTagged (d : De α) (tag : UInt8) : De (Option α) :=
  if tag = 0 then pure none else if tag = 1 then some <$> d else De.fail .expectedOption

instance [FromBcs α] : FromBcs (Option α) := ⟨De.next >>= readTagged fromBcs⟩

/-- A string is read as bytes, which have to be text. -/
def ofUtf8 (bytes : Bytes) : De String :=
  match String.fromUTF8? bytes.toByteArray with
  | some s => pure s
  | none => De.fail .utf8

instance : FromBcs String := ⟨fromBcs >>= ofUtf8⟩

theorem reads_string {text : Bytes} (ht : text.toByteArray.IsValidUTF8) (h : bytes ∈ toBcs text) :
    Reads (fromBcs : De String) bytes (String.fromUTF8 text.toByteArray ht) := by
  have hr : Reads (fromBcs : De Bytes) bytes (text.map image) := Mirror.reads text bytes h
  have hid : text.map (image : UInt8 → UInt8) = text := map_id text
  rw [hid] at hr
  rw [← append_nil bytes]
  refine hr.bind ?_
  rw [ofUtf8, String.fromUTF8?, dif_pos ht]
  exact .pure _

/-! ## Whole inputs -/

/-- Read a value; nothing may be left. -/
def fromBytes [FromBcs α] (bytes : Bytes) : Except Error α := do
  let result ← (fromBcs : De α) bytes
  check (result.2 = []) .remainingInput
  return result.1

theorem fromBytes_of_reads [FromBcs α] {a : α}
    (h : Reads (fromBcs : De α) bytes a) : fromBytes bytes = .ok a := by
  have hr := h []
  rw [append_nil] at hr
  rw [fromBytes, hr, ok_bind, check_of rfl, ok_bind, pure_ok]

/-- What follows a value is refused. -/
theorem fromBytes_trailing [FromBcs α] {rest : Bytes} {a : α}
    (h : Reads (fromBcs : De α) bytes a) (hr : rest ≠ []) :
    (fromBytes (bytes ++ rest) : Except Error α) = .error .remainingInput := by
  have hc : check (rest = []) Error.remainingInput = .error .remainingInput :=
    check_error.2 ⟨hr, rfl⟩
  rw [fromBytes, h rest, ok_bind, hc, error_bind]

theorem fromBytes_toBcs [ToBcs α] [FromBcs β] [Mirror α β] {a : α}
    (h : toBcs a = some bytes) : fromBytes bytes = .ok (image a : β) :=
  fromBytes_of_reads (Mirror.reads a bytes h)

end OneChain.Lib.Bcs
