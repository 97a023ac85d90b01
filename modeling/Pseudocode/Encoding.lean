import Pseudocode.Text.Basic

namespace Pseudocode

inductive Encoding where
  | utf8
  /-- Starts perhaps with a byte order mark, which is no text. -/
  | markedUtf8
  | ascii
  | latin1
  deriving DecidableEq, Repr

/-- Why bytes are no text. -/
inductive DecodeCause where
  | invalidStart
  | invalidContinuation
  | unexpectedEnd
  | outsideAscii
  deriving DecidableEq, Repr

def DecodeCause.message : DecodeCause → String
  | .invalidStart => "invalid start byte"
  | .invalidContinuation => "invalid continuation byte"
  | .unexpectedEnd => "unexpected end of data"
  | .outsideAscii => "ordinal not in range(128)"

/-- The first bytes that cannot be read: their place, how many they are, and the first one. -/
structure DecodeError where
  start : Nat
  length : Nat
  byte : UInt8
  cause : DecodeCause
  deriving DecidableEq, Repr

namespace Encoding

/-- The encoding of a name. -/
def ofName? (name : Text) : Option Encoding :=
  match (String.ofList (name.map fun c => if c = '_' then '-' else c.toLower)) with
  | "utf-8" | "utf8" | "u8" => some .utf8
  | "utf-8-sig" => some .markedUtf8
  | "ascii" | "us-ascii" => some .ascii
  | "latin-1" | "latin1" | "iso-8859-1" | "iso8859-1" | "l1" => some .latin1
  | _ => none

/-- The number of continuation bytes that a start byte calls for, its own bits, and the range that
the first of them must be in, which keeps out spellings that are too long, surrogates and numbers
past the last character. -/
def startByte? (byte : Nat) : Option (Nat × Nat × Nat × Nat) :=
  if byte < 0x80 then some (0, byte, 0, 0)
  else if byte < 0xc2 then none
  else if byte < 0xe0 then some (1, byte - 0xc0, 0x80, 0xbf)
  else if byte < 0xf0 then
    some (2, byte - 0xe0, if byte = 0xe0 then 0xa0 else 0x80, if byte = 0xed then 0x9f else 0xbf)
  else if byte < 0xf5 then
    some (3, byte - 0xf0, if byte = 0xf0 then 0x90 else 0x80, if byte = 0xf4 then 0x8f else 0xbf)
  else none

/-- Reads `count` continuation bytes after `read` others, with `bits` read so far. The next one
must lie between `least` and `most`. -/
def continuation (read bits least most : Nat) :
    (count : Nat) → List UInt8 → Except (Nat × DecodeCause) (Nat × List UInt8)
  | 0, rest => .ok (bits, rest)
  | _ + 1, [] => .error (read, .unexpectedEnd)
  | count + 1, byte :: rest =>
    if least ≤ byte.toNat ∧ byte.toNat ≤ most then
      continuation (read + 1) (bits * 64 + (byte.toNat - 0x80)) 0x80 0xbf count rest
    else .error (read, .invalidContinuation)

/-- Reads one character at the start of some bytes. An error tells how many bytes it covers. -/
def character (byte : UInt8) (rest : List UInt8) :
    Except (Nat × DecodeCause) (Char × List UInt8) :=
  match startByte? byte.toNat with
  | none => .error (1, .invalidStart)
  | some (count, bits, least, most) =>
    (continuation 1 bits least most count rest).map fun (code, rest) => (Char.ofNat code, rest)

theorem continuation_length {read bits least most count : Nat} {bytes : List UInt8}
    {code : Nat} {rest : List UInt8}
    (done : continuation read bits least most count bytes = .ok (code, rest)) :
    rest.length ≤ bytes.length := by
  induction count generalizing read bits least most bytes with
  | zero =>
    simp only [continuation, Except.ok.injEq, Prod.mk.injEq] at done
    simp [done.2]
  | succ count ih =>
    cases bytes with
    | nil => simp [continuation] at done
    | cons byte bytes =>
      simp only [continuation] at done
      split at done
      · have := ih done
        simp only [List.length_cons]
        omega
      · simp at done

theorem character_length {byte : UInt8} {bytes rest : List UInt8} {c : Char}
    (done : character byte bytes = .ok (c, rest)) : rest.length ≤ bytes.length := by
  unfold character at done
  split at done
  · simp at done
  · rename_i count bits least most _
    cases whole : continuation 1 bits least most count bytes with
    | error cause => simp [whole, Except.map] at done
    | ok pair =>
      obtain ⟨code, after⟩ := pair
      simp only [whole, Except.map, Except.ok.injEq, Prod.mk.injEq] at done
      exact done.2 ▸ continuation_length whole

/-- Reads bytes from `place` on as UTF-8. -/
def decodeUtf8 (place : Nat) (bytes : List UInt8) : Except DecodeError Text :=
  match bytes with
  | [] => .ok []
  | byte :: rest =>
    match read : character byte rest with
    | .error (length, cause) => .error { start := place, length, byte, cause }
    | .ok (c, after) =>
      have := character_length read
      (decodeUtf8 (place + c.utf8Size) after).map (c :: ·)
termination_by bytes.length

def decodeAscii (place : Nat) : List UInt8 → Except DecodeError Text
  | [] => .ok []
  | byte :: rest =>
    if byte.toNat < 128 then (decodeAscii (place + 1) rest).map (Char.ofNat byte.toNat :: ·)
    else .error { start := place, length := 1, byte, cause := .outsideAscii }

def byteOrderMark : List UInt8 :=
  [0xef, 0xbb, 0xbf]

def decode (encoding : Encoding) (bytes : List UInt8) : Except DecodeError Text :=
  match encoding with
  | .utf8 => decodeUtf8 0 bytes
  | .markedUtf8 =>
    if bytes.isPrefixOf byteOrderMark then .ok []
    else if byteOrderMark.isPrefixOf bytes then decodeUtf8 0 (bytes.drop 3)
    else decodeUtf8 0 bytes
  | .ascii => decodeAscii 0 bytes
  | .latin1 => .ok (bytes.map fun byte => Char.ofNat byte.toNat)

/-- The bytes of a text in UTF-8. -/
def encode (text : Text) : List UInt8 :=
  (String.ofList text).toUTF8.toList

end Encoding

/-- What a failed reading is told as. -/
def DecodeError.message (error : DecodeError) : String :=
  let hex := String.ofList (Nat.toDigits 16 error.byte.toNat)
  let cause := error.cause.message
  if error.length = 1 then
    s!"'utf-8' codec can't decode byte 0x{hex} in position {error.start}: {cause}"
  else
    let last := error.start + error.length - 1
    s!"'utf-8' codec can't decode bytes in position {error.start}-{last}: {cause}"

end Pseudocode
