import Mathlib.Algebra.Group.Nat.Defs
import RegisterCode.Prototype.Chunk

/-! A reader of binary chunks. Each part of the reader takes exactly the bytes that
the writer made for a value and gives the value back, so it composes with readers
of what follows. -/
namespace RegisterCode.Chunk

abbrev Reader (α : Type) := StateT Bytes Option α

namespace Reader

def byte : Reader UInt8
  | [] => none
  | first :: rest => some (first, rest)

def bytes (count : Nat) : Reader Bytes := fun input =>
  if count ≤ input.length then some (input.take count, input.drop count) else none

def number : (width : Nat) → Reader Nat
  | 0 => pure 0
  | width + 1 => do
    let low ← byte
    let high ← number width
    pure (low.toNat + 256 * high)

def word : Reader UInt32 := do
  pure (.ofNat (← number 4))

def flag : Reader Bool := do
  pure ((← byte) != 0)

/-- A length is a signed word, so lengths from `2 ^ 31` on are negative. -/
def count : Reader Nat := do
  let n ← number 4
  guard (n < 2 ^ 31)
  pure n

def items {α : Type} (element : Reader α) : Nat → Reader (List α)
  | 0 => pure []
  | n + 1 => do
    let first ← element
    let rest ← items element n
    pure (first :: rest)

def list {α : Type} (element : Reader α) : Reader (List α) := do
  items element (← count)

def size : Reader Nat := do
  let lead ← byte
  if lead = 255 then number 8 else pure lead.toNat

def textOf? (content : Bytes) : Option String :=
  String.fromUTF8? ⟨content.toArray⟩

def optionalText : Reader (Option String) := do
  match ← size with
  | 0 => pure none
  | size + 1 =>
    let content ← bytes size
    let s ← textOf? content
    pure (some s)

def text : Reader String := do
  (← optionalText : Option String)

def constant : Reader Constant := do
  match (← byte).toNat with
  | 0 => pure .nil
  | 1 => .boolean <$> flag
  | 3 => (.number ⟨.ofNat ·⟩) <$> number 8
  | 19 => (fun n => .integer (UInt64.ofNat n).toInt64) <$> number 8
  | 4 | 20 => .string <$> text
  | _ => failure

def place : Reader (Bool × UInt8) := do
  let inStack ← flag
  let index ← byte
  pure (inStack, index)

def localRange : Reader LocalRange := do
  let name ← text
  let startPc ← word
  let endPc ← word
  pure ⟨name, startPc, endPc⟩

/-- Upvalues whose names are not recorded have the empty name. -/
def named : List (Bool × UInt8) → List String → List Capture
  | [], _ => []
  | (inStack, index) :: places, names =>
    ⟨names.headD "", inStack, index⟩ :: named places names.tail

/-- A function inside one with the source `around`, with functions nested in it less
deep than `depth`. A source that is left out is the one around. -/
def function : (depth : Nat) → (around : Option String) → Reader Prototype
  | 0, _ => failure
  | depth + 1, around => do
    let written ← optionalText
    let source := written.or around
    let firstLine ← word
    let lastLine ← word
    let paramCount ← byte
    let isVararg ← flag
    let stackSize ← byte
    let code ← list word
    let constants ← list constant
    let places ← list place
    let children ← list (function depth source)
    let lines ← list word
    let locals ← list localRange
    let names ← list text
    guard (names.length ≤ places.length)
    let upvalues := named places names
    pure { source, firstLine, lastLine, paramCount, isVararg, stackSize, code, lines,
           constants, upvalues, children, locals }

def main (depth : Nat) : Reader Prototype := do
  let lead ← bytes header.length
  guard (lead = header)
  let upvalues ← byte
  let main ← function depth none
  guard (upvalues.toNat = main.upvalues.length)
  pure main

end Reader

/-- Read a whole chunk. No nesting is deeper than the chunk is long, and no byte may
be left over. -/
def read (chunk : Bytes) : Option Prototype :=
  match Reader.main chunk.length chunk with
  | some (main, []) => some main
  | _ => none

/-- The reader takes these bytes for this value, whatever follows them. -/
def Reader.Takes {α : Type} (reader : Reader α) (bytes : Bytes) (value : α) : Prop :=
  ∀ rest, reader (bytes ++ rest) = some (value, rest)

namespace Reader

theorem takes_pure {α : Type} (value : α) : Takes (pure value) [] value :=
  fun _ => rfl

theorem Takes.bind {α β : Type} {first : Reader α} {next : α → Reader β} {front back : Bytes}
    {a : α} {b : β} (hfirst : first.Takes front a) (hnext : (next a).Takes back b) :
    Takes (first >>= next) (front ++ back) b := by
  intro rest
  rw [List.append_assoc]
  change (first (front ++ (back ++ rest)) >>= fun (value, rest) => next value rest) = _
  rw [hfirst]
  exact hnext rest

theorem Takes.map {α β : Type} {reader : Reader α} {bytes : Bytes} {a : α}
    (h : reader.Takes bytes a) (f : α → β) : Takes (f <$> reader) bytes (f a) := by
  intro rest
  change (reader (bytes ++ rest) >>= fun (value, rest) => some (f value, rest)) = _
  rw [h]
  rfl

theorem Takes.bind_nil {α β : Type} {first : Reader α} {next : α → Reader β} {bytes : Bytes}
    {a : α} {b : β} (hfirst : first.Takes bytes a) (hnext : (next a).Takes [] b) :
    Takes (first >>= next) bytes b := by
  rw [← List.append_nil bytes]
  exact hfirst.bind hnext

theorem Takes.bind_pure {α β : Type} {reader : Reader α} {bytes : Bytes} {a : α}
    (h : reader.Takes bytes a) (f : α → β) :
    Takes (reader >>= fun value => pure (f value)) bytes (f a) :=
  h.bind_nil (takes_pure (f a))

theorem takes_guard {α : Type} {condition : Prop} [Decidable condition] {next : Unit → Reader α}
    {bytes : Bytes} {a : α} (hcondition : condition) (hnext : (next ()).Takes bytes a) :
    Takes (guard condition >>= next) bytes a := by
  have hguard : (guard condition : Reader Unit) = pure () := if_pos hcondition
  rw [hguard]
  exact (takes_pure ()).bind hnext

theorem takes_byte (b : UInt8) : byte.Takes [b] b :=
  fun _ => rfl

theorem takes_byte_bind {α : Type} {next : UInt8 → Reader α} {b : UInt8} {bytes : Bytes} {a : α}
    (hnext : (next b).Takes bytes a) : Takes (byte >>= next) (b :: bytes) a :=
  (takes_byte b).bind hnext

theorem takes_bytes (content : Bytes) : (bytes content.length).Takes content content := by
  intro rest
  simp [bytes]

theorem takes_number (width : Nat) {n : Nat} (h : n < 256 ^ width) :
    (number width).Takes (littleEndian width n) n := by
  induction width generalizing n with
  | zero =>
    have hzero : n = 0 := by simpa using h
    subst hzero
    exact takes_pure 0
  | succ width ih =>
    have hhigh : n / 256 < 256 ^ width := by
      rw [Nat.pow_succ] at h
      exact Nat.div_lt_of_lt_mul (by omega)
    have hwhole : (UInt8.ofNat n).toNat + 256 * (n / 256) = n := by
      rw [UInt8.toNat_ofNat']
      omega
    have htakes : Takes (number (width + 1)) (littleEndian (width + 1) n)
        ((UInt8.ofNat n).toNat + 256 * (n / 256)) :=
      takes_byte_bind ((ih hhigh).bind_pure _)
    rwa [hwhole] at htakes

theorem takes_word (n : UInt32) : word.Takes (Chunk.word n) n := by
  have htakes := (takes_number 4 n.toNat_lt).bind_pure UInt32.ofNat
  rwa [UInt32.ofNat_toNat] at htakes

theorem takes_flag (b : Bool) : flag.Takes [Chunk.flag b] b := by
  have htakes := (takes_byte (Chunk.flag b)).bind_pure (· != 0)
  have hflag : (Chunk.flag b != 0) = b := by cases b <;> decide
  rwa [hflag] at htakes

theorem takes_count {n : Nat} (h : n < 2 ^ 31) : count.Takes (Chunk.word (.ofNat n)) n := by
  have hn : (UInt32.ofNat n).toNat = n := by
    rw [UInt32.toNat_ofNat']
    omega
  unfold Chunk.word
  rw [hn]
  exact (takes_number 4 (by omega)).bind_nil (takes_guard h (takes_pure n))

theorem takes_items {α β : Type} {reader : Reader β} {element : α → Bytes} {f : α → β}
    {values : List α} (h : ∀ value ∈ values, reader.Takes (element value) (f value)) :
    (items reader values.length).Takes (values.flatMap element) (values.map f) := by
  induction values with
  | nil => exact takes_pure []
  | cons value values ih =>
    rw [List.flatMap_cons]
    refine (h value (by simp)).bind ((ih ?_).bind_pure _)
    intro later hlater
    exact h later (by simp [hlater])

theorem takes_list_map {α β : Type} {reader : Reader β} {element : α → Bytes} {f : α → β}
    {values : List α} (hlength : values.length < 2 ^ 31)
    (h : ∀ value ∈ values, reader.Takes (element value) (f value)) :
    (list reader).Takes (Chunk.list element values) (values.map f) :=
  (takes_count hlength).bind (takes_items h)

theorem takes_list {α : Type} {reader : Reader α} {element : α → Bytes} {values : List α}
    (hlength : values.length < 2 ^ 31)
    (h : ∀ value ∈ values, reader.Takes (element value) value) :
    (list reader).Takes (Chunk.list element values) values := by
  have htakes := takes_list_map (f := id) hlength h
  rwa [List.map_id] at htakes

theorem takes_size {n : Nat} (h : n < 2 ^ 64) :
    size.Takes (if n < 255 then [.ofNat n] else 255 :: littleEndian 8 n) n := by
  split
  next hshort =>
    have hbyte : (UInt8.ofNat n).toNat = n := by
      rw [UInt8.toNat_ofNat']
      omega
    have hlead : UInt8.ofNat n ≠ 255 := by
      intro hlead
      rw [hlead] at hbyte
      exact absurd hbyte (Nat.ne_of_gt hshort)
    have hrest : Takes (if UInt8.ofNat n = 255 then number 8 else pure (UInt8.ofNat n).toNat)
        [] n := by
      rw [if_neg hlead, hbyte]
      exact takes_pure n
    exact takes_byte_bind hrest
  next => exact takes_byte_bind (takes_number 8 h)

theorem textOf?_utf8 (s : String) : textOf? (utf8 s) = some s := by
  unfold textOf? utf8 String.fromUTF8?
  rw [Array.toArray_toList]
  exact dif_pos s.isValidUTF8

theorem takes_optionalText {written : Option String}
    (h : ∀ s ∈ written, s.utf8ByteSize + 1 < 2 ^ 64) :
    optionalText.Takes (Chunk.optionalText written) written := by
  cases written with
  | none => exact (takes_size (n := 0) (by decide)).bind (takes_pure none)
  | some s =>
    have hlength : (utf8 s).length = s.utf8ByteSize := rfl
    have hsize := takes_size (n := (utf8 s).length + 1) (hlength ▸ h s rfl)
    refine hsize.bind ((takes_bytes (utf8 s)).bind_nil ?_)
    rw [textOf?_utf8]
    exact takes_pure (some s)

theorem takes_text {s : String} (h : s.utf8ByteSize + 1 < 2 ^ 64) :
    text.Takes (Chunk.text s) s := by
  have hsome : ∀ s' ∈ some s, s'.utf8ByteSize + 1 < 2 ^ 64 := by
    rintro _ ⟨⟩
    exact h
  exact (takes_optionalText hsome).bind_nil (takes_pure s)

theorem takes_constant {constant : Constant}
    (h : ∀ s, constant = .string s → s.utf8ByteSize + 1 < 2 ^ 64) :
    Reader.constant.Takes (Chunk.constant constant) constant := by
  cases constant with
  | nil => exact takes_byte_bind (takes_pure _)
  | boolean b => exact takes_byte_bind ((takes_flag b).map _)
  | integer n =>
    have htakes := (takes_number 8 n.toUInt64.toNat_lt).map
      fun n => Constant.integer (UInt64.ofNat n).toInt64
    rw [UInt64.ofNat_toNat] at htakes
    exact takes_byte_bind htakes
  | number x =>
    have htakes := (takes_number 8 x.bits.toNat_lt).map (Constant.number ⟨.ofNat ·⟩)
    rw [UInt64.ofNat_toNat] at htakes
    exact takes_byte_bind htakes
  | string s =>
    have htakes := (takes_text (h s rfl)).map Constant.string
    simp only [Chunk.constant]
    split
    · exact takes_byte_bind htakes
    · exact takes_byte_bind htakes

theorem takes_place (up : Capture) : place.Takes (Chunk.capture up) (up.inStack, up.index) :=
  (takes_flag up.inStack).bind ((takes_byte up.index).bind_pure _)

end Reader

end RegisterCode.Chunk
