import C0mpiler.Ir.CoreInst
import Mathlib

/-!
# Printed string constants

`bytes_escape` of `ir_output.rs` against the way LLVM reads `c"..."`: a backslash and two hexadecimal
digits are one byte, every other character is itself.
-/

namespace Ir

/-- `as_bytes`. -/
def asBytes (input : String) : List UInt8 := input.toUTF8.data.toList

/-- `is_ascii_graphic`. -/
def isAsciiGraphic (byte : UInt8) : Bool := 0x21 ≤ byte && byte ≤ 0x7E

/-- A digit of `{:X}`. -/
def hexDigit (n : Nat) : Char := if n < 10 then Char.ofNat (48 + n) else Char.ofNat (55 + n)

/-- `{byte:X}`: no leading zero. -/
def formatX (byte : UInt8) : List Char :=
  if byte.toNat < 16 then [hexDigit byte.toNat]
  else [hexDigit (byte.toNat / 16), hexDigit (byte.toNat % 16)]

/-- The loop body of `bytes_escape`. -/
def escapeByte (byte : UInt8) : List Char :=
  if isAsciiGraphic byte && byte != 0x22 && byte != 0x5C then [Char.ofNat byte.toNat]
  else '\\' :: formatX byte

/-- `bytes_escape`: the bytes of the string, each escaped on its own. -/
def bytesEscape (input : String) : List Char := (asBytes input).flatMap escapeByte

/-- The text of `ConstKind::String` in `ir_print_const`. -/
def printString (value : String) : List Char := ['c', '"'] ++ bytesEscape value ++ ['"']

/-! ## Reading -/

/-- A hexadecimal digit, of either case. -/
def hexValue (c : Char) : Option Nat :=
  if '0' ≤ c ∧ c ≤ '9' then some (c.toNat - 48)
  else if 'A' ≤ c ∧ c ≤ 'F' then some (c.toNat - 55)
  else if 'a' ≤ c ∧ c ≤ 'f' then some (c.toNat - 87)
  else none

/-- The byte of two hexadecimal digits. -/
def hexByte (a b : Char) : Option UInt8 := do
  let high ← hexValue a
  let low ← hexValue b
  return UInt8.ofNat (16 * high + low)

/-- The bytes that a text between `c"` and `"` denotes. -/
def readBytes : List Char → List UInt8
  | [] => []
  | [c] => String.utf8EncodeChar c
  | [c, a] => String.utf8EncodeChar c ++ String.utf8EncodeChar a
  | c :: a :: b :: text =>
    match if c = '\\' then hexByte a b else none with
    | some byte => byte :: readBytes text
    | none => String.utf8EncodeChar c ++ readBytes (a :: b :: text)

/-- A constant `c"..."`, up to its closing quote. -/
def readString : List Char → Option (List UInt8)
  | 'c' :: '"' :: text => if '"' ∈ text then some (readBytes (text.takeWhile (· != '"'))) else none
  | _ => none

/-- Any character but a backslash stands for itself. -/
theorem readBytes_plain {c : Char} (hc : c ≠ '\\') (text : List Char) :
    readBytes (c :: text) = String.utf8EncodeChar c ++ readBytes text := by
  match text with
  | [] => simp [readBytes]
  | [a] => rfl
  | a :: b :: text => rw [readBytes, if_neg hc]

/-- A backslash and two digits stand for a byte. -/
theorem readBytes_pair {a b : Char} {byte : UInt8} (h : hexByte a b = some byte) (text : List Char) :
    readBytes ('\\' :: a :: b :: text) = byte :: readBytes text := by
  rw [readBytes, if_pos rfl, h]

/-- A backslash without two digits stands for itself. -/
theorem readBytes_backslash {text : List Char}
    (h : ∀ a b text', text = a :: b :: text' → hexByte a b = none) :
    readBytes ('\\' :: text) = 0x5C :: readBytes text := by
  match text with
  | [] => rfl
  | [a] => rfl
  | a :: b :: text =>
    rw [readBytes, if_pos rfl, h a b text rfl]
    rfl

/-! ## The escapes -/

/-- A digit is read back as what has been printed. -/
theorem hexValue_hexDigit : ∀ n < 16, hexValue (hexDigit n) = some n := by decide

/-- A byte of two digits is read back. -/
theorem hexByte_formatX {byte : UInt8} (h : 16 ≤ byte.toNat) :
    hexByte (hexDigit (byte.toNat / 16)) (hexDigit (byte.toNat % 16)) = some byte := by
  have hlt := byte.toNat_lt
  rw [hexByte, hexValue_hexDigit _ (by omega), hexValue_hexDigit _ (by omega)]
  simp only [Option.bind_eq_bind, Option.bind_some, Nat.div_add_mod]
  exact congrArg some UInt8.ofNat_toNat

/-- An ASCII character is one byte. -/
theorem utf8EncodeChar_ascii {byte : UInt8} (h : byte.toNat < 128) :
    String.utf8EncodeChar (Char.ofNat byte.toNat) = [byte] := by
  have hascii : ∀ n < 128, String.utf8EncodeChar (Char.ofNat n) = [UInt8.ofNat n] := by decide
  rw [hascii _ h, UInt8.ofNat_toNat]

/-- Only the backslash is the backslash. -/
theorem ofNat_ne_backslash {byte : UInt8} (h : byte.toNat < 128) (hne : byte ≠ 0x5C) :
    Char.ofNat byte.toNat ≠ '\\' := by
  have hascii : ∀ n < 128, Char.ofNat n = '\\' → n = 0x5C := by decide
  exact fun hc => hne (UInt8.toNat_inj.mp (hascii _ h hc))

/-- How a byte is printed. -/
theorem escapeByte_cases (byte : UInt8) :
    (0x21 ≤ byte.toNat ∧ byte.toNat ≤ 0x7E ∧ byte ≠ 0x5C ∧
        escapeByte byte = [Char.ofNat byte.toNat]) ∨
      escapeByte byte = '\\' :: formatX byte := by
  unfold escapeByte
  split
  · next hplain =>
    simp only [isAsciiGraphic, Bool.and_eq_true, decide_eq_true_eq, bne_iff_ne] at hplain
    exact Or.inl ⟨UInt8.le_iff_toNat_le.mp hplain.1.1.1, UInt8.le_iff_toNat_le.mp hplain.1.1.2,
      hplain.2, rfl⟩
  · exact Or.inr rfl

/-- The escape of a byte from 16 on is read back as that byte, whatever follows. -/
theorem readBytes_escapeByte {byte : UInt8} (h : 16 ≤ byte.toNat) (text : List Char) :
    readBytes (escapeByte byte ++ text) = byte :: readBytes text := by
  rcases escapeByte_cases byte with ⟨-, hle, hne, heq⟩ | heq
  · have hascii : byte.toNat < 128 := by omega
    rw [heq, List.singleton_append, readBytes_plain (ofNat_ne_backslash hascii hne),
      utf8EncodeChar_ascii hascii]
    rfl
  · rw [heq, formatX, if_neg (by omega)]
    exact readBytes_pair (hexByte_formatX h) text

/-- A byte below 16 is escaped with one digit. -/
theorem escapeByte_small {byte : UInt8} (h : byte.toNat < 16) :
    escapeByte byte = ['\\', hexDigit byte.toNat] := by
  rcases escapeByte_cases byte with ⟨hle, -, -, -⟩ | heq
  · omega
  · rw [heq, formatX, if_pos h]

/-- The escape of a byte below 16 is read with the character behind it, or not at all. -/
theorem readBytes_small {byte : UInt8} (h : byte.toNat < 16) (bytes : List UInt8) :
    (∃ rest, readBytes ((byte :: bytes).flatMap escapeByte) = 0x5C :: rest) ∨
      ∃ next bytes' value, bytes = next :: bytes' ∧ next ≠ 0x5C ∧
        hexValue (Char.ofNat next.toNat) = some value ∧
        readBytes ((byte :: bytes).flatMap escapeByte) =
          UInt8.ofNat (16 * byte.toNat + value) :: readBytes (bytes'.flatMap escapeByte) := by
  have hfront : (byte :: bytes).flatMap escapeByte =
      '\\' :: hexDigit byte.toNat :: bytes.flatMap escapeByte := by
    rw [List.flatMap_cons, escapeByte_small h]
    rfl
  rw [hfront]
  cases bytes with
  -- the escape ends the string: there is no second digit
  | nil =>
    refine Or.inl ⟨_, readBytes_backslash fun a b text hcons => ?_⟩
    cases (List.cons.inj hcons).2
  | cons next bytes =>
    rw [List.flatMap_cons]
    rcases escapeByte_cases next with ⟨-, -, hne, heq⟩ | heq
    · rw [heq, List.singleton_append]
      -- the next byte stands for itself, and is a second digit if it is one
      cases hvalue : hexValue (Char.ofNat next.toNat) with
      | none =>
        refine Or.inl ⟨_, readBytes_backslash fun a b text hcons => ?_⟩
        obtain ⟨rfl, htail⟩ := List.cons.inj hcons
        obtain ⟨rfl, -⟩ := List.cons.inj htail
        rw [hexByte, hexValue_hexDigit _ h, hvalue]
        rfl
      | some value =>
        refine Or.inr ⟨next, bytes, value, rfl, hne, hvalue, readBytes_pair ?_ _⟩
        rw [hexByte, hexValue_hexDigit _ h, hvalue]
        rfl
    -- the next byte is an escape, and a backslash is no digit
    · rw [heq, List.cons_append]
      refine Or.inl ⟨_, readBytes_backslash fun a b text hcons => ?_⟩
      obtain ⟨rfl, htail⟩ := List.cons.inj hcons
      obtain ⟨rfl, -⟩ := List.cons.inj htail
      rw [hexByte, hexValue_hexDigit _ h]
      rfl

/-- The first quote ends the constant. -/
theorem quote_not_mem_bytesEscape (value : String) : '"' ∉ bytesEscape value := by
  intro hmem
  obtain ⟨byte, -, hmem⟩ := List.mem_flatMap.mp hmem
  have hdigit : ∀ n < 16, '"' ≠ hexDigit n := by decide
  have hascii : ∀ n < 128, '"' = Char.ofNat n → n = 0x22 := by decide
  unfold escapeByte at hmem
  split at hmem
  · next hplain =>
    simp only [isAsciiGraphic, Bool.and_eq_true, decide_eq_true_eq, bne_iff_ne] at hplain
    have hle := UInt8.le_iff_toNat_le.mp hplain.1.1.2
    exact hplain.1.2 (UInt8.toNat_inj.mp (hascii _ (Nat.lt_succ_of_le (hle.trans (by decide)))
      (List.mem_singleton.mp hmem)))
  · have hlt := byte.toNat_lt
    rcases List.mem_cons.mp hmem with h | hmem
    · cases h
    · unfold formatX at hmem
      split at hmem
      · next hsmall => exact hdigit _ hsmall (List.mem_singleton.mp hmem)
      · rcases List.mem_cons.mp hmem with h | h
        · exact hdigit _ (by omega) h
        · exact hdigit _ (by omega) (List.mem_singleton.mp h)

/-- A printed constant is read back as the bytes between its quotes: no escape contains a quote. -/
theorem readString_printString (value : String) :
    readString (printString value) = some (readBytes (bytesEscape value)) := by
  have hquote := quote_not_mem_bytesEscape value
  have htake : (bytesEscape value ++ ['"']).takeWhile (· != '"') = bytesEscape value := by
    rw [List.takeWhile_append_of_pos]
    · exact List.append_nil _
    · exact fun c hc => bne_iff_ne.mpr fun h => hquote (h ▸ hc)
  have hmem : '"' ∈ bytesEscape value ++ ['"'] := List.mem_append_right _ (List.mem_singleton_self _)
  change (if '"' ∈ bytesEscape value ++ ['"'] then
    some (readBytes ((bytesEscape value ++ ['"']).takeWhile (· != '"'))) else none) = _
  rw [if_pos hmem, htake]

/-! ## The round trip -/

/-- A byte in front moves the first backslash by one at most. -/
theorem idxOf_cons_le (byte : UInt8) (bytes : List UInt8) :
    (byte :: bytes).idxOf 0x5C ≤ bytes.idxOf 0x5C + 1 := by
  rw [List.idxOf_cons]
  cases byte == 0x5C with
  | true => exact Nat.zero_le _
  | false => exact le_rfl

/-- Reading never meets a backslash later than the bytes do: an escape that is read with too many
characters is one byte too few, and one that is not read is a backslash. -/
theorem idxOf_readBytes_le (bytes : List UInt8) :
    (readBytes (bytes.flatMap escapeByte)).idxOf 0x5C ≤ bytes.idxOf 0x5C := by
  match bytes with
  | [] => exact le_rfl
  | byte :: bytes =>
    by_cases h : byte.toNat < 16
    · have hne : byte ≠ 0x5C := by
        rintro rfl
        exact absurd h (by decide)
      rcases readBytes_small h bytes with ⟨rest, heq⟩ | ⟨next, bytes', value, rfl, hnext, -, heq⟩
      · rw [heq, List.idxOf_cons_self]
        exact Nat.zero_le _
      · have ih := idxOf_readBytes_le bytes'
        rw [heq, List.idxOf_cons_ne _ hne, List.idxOf_cons_ne _ hnext]
        have hle := idxOf_cons_le (UInt8.ofNat (16 * byte.toNat + value))
          (readBytes (bytes'.flatMap escapeByte))
        omega
    · have ih := idxOf_readBytes_le bytes
      rw [List.flatMap_cons, readBytes_escapeByte (by omega)]
      by_cases hne : byte = 0x5C
      · rw [hne, List.idxOf_cons_self]
        exact Nat.zero_le _
      · rw [List.idxOf_cons_ne _ hne, List.idxOf_cons_ne _ hne]
        exact Nat.succ_le_succ ih

/-- A string constant is read back just where no byte of it is below 16. -/
theorem readBytes_bytesEscape_iff (value : String) :
    readBytes (bytesEscape value) = asBytes value ↔ ∀ byte ∈ asBytes value, 16 ≤ byte.toNat := by
  unfold bytesEscape
  induction asBytes value with
  | nil => exact iff_of_true rfl nofun
  | cons byte bytes ih =>
    by_cases h : byte.toNat < 16
    · refine iff_of_false (fun heq => ?_) fun hall => ?_
      · rcases readBytes_small h bytes with ⟨rest, hread⟩ | ⟨next, bytes', value, rfl, hnext, hval, hread⟩
        · obtain ⟨rfl, -⟩ := List.cons.inj (hread.symm.trans heq)
          exact absurd h (by decide)
        · -- the rest would be one byte late, and stay so
          obtain ⟨-, htail⟩ := List.cons.inj (hread.symm.trans heq)
          have hle := idxOf_readBytes_le bytes'
          rw [htail, List.idxOf_cons_ne _ hnext] at hle
          omega
      · have hbyte := hall byte List.mem_cons_self
        omega
    · rw [List.flatMap_cons, readBytes_escapeByte (by omega), List.cons_inj_right, ih,
        List.forall_mem_cons]
      exact (and_iff_right (by omega)).symm

/-- A newline in front of a letter: the letter is read as a digit. -/
theorem readBytes_newline : readBytes (bytesEscape "\nB") ≠ asBytes "\nB" := by decide

end Ir
