import PlusLisp.Text.Hexadecimal

/-!
Reading UTF-8. A text is decoded byte by byte; bytes that belong to no character are reported
with their position, how many of them there are, and what is wrong with them.
-/

namespace PlusLisp.Text.Utf8

/-- What is wrong with malformed bytes. -/
inductive Flaw where
  /-- The byte starts no character. -/
  | start
  /-- The byte that follows does not continue the character. -/
  | continuation
  /-- The character is cut off by the end. -/
  | ending
  deriving DecidableEq, Repr

/-- The wording of a flaw. -/
def Flaw.message : Flaw → String
  | start => "invalid start byte"
  | continuation => "invalid continuation byte"
  | ending => "unexpected end of data"

/-- Malformed bytes: the first of them, its position, their count, and the flaw. -/
structure Malformed where
  byte : UInt8
  position : Nat
  count : Nat
  flaw : Flaw
  deriving DecidableEq, Repr

/-- The wording of a report on malformed bytes: a single byte is shown, several are counted. -/
def Malformed.message (m : Malformed) : String :=
  let which :=
    if m.count = 1 then
      "byte 0x" ++ String.ofList (hexDigits 2 m.byte.toNat) ++ " in position " ++
        toString m.position
    else
      "bytes in position " ++ toString m.position ++ "-" ++ toString (m.position + m.count - 1)
  "'utf-8' codec can't decode " ++ which ++ ": " ++ m.flaw.message

/-- A character of which some bytes are still missing. -/
structure Partial where
  /-- The first byte. -/
  lead : UInt8
  /-- How many bytes have been read. -/
  seen : Nat
  /-- How many bytes are missing. -/
  missing : Nat
  /-- The range of the next byte. -/
  low : Nat
  high : Nat
  /-- The value of the bits read so far. -/
  value : Nat

/-- What a byte starts: a shorter form of a character than the shortest is refused, as are
surrogates and code points beyond the last plane, by the range of the second byte. -/
def Partial.ofLead? (byte : UInt8) : Option Partial :=
  let n := byte.toNat
  if 0xc2 ≤ n ∧ n ≤ 0xdf then some ⟨byte, 1, 1, 0x80, 0xbf, n - 0xc0⟩
  else if n = 0xe0 then some ⟨byte, 1, 2, 0xa0, 0xbf, 0⟩
  else if n = 0xed then some ⟨byte, 1, 2, 0x80, 0x9f, 0xd⟩
  else if 0xe1 ≤ n ∧ n ≤ 0xef then some ⟨byte, 1, 2, 0x80, 0xbf, n - 0xe0⟩
  else if n = 0xf0 then some ⟨byte, 1, 3, 0x90, 0xbf, 0⟩
  else if n = 0xf4 then some ⟨byte, 1, 3, 0x80, 0x8f, 4⟩
  else if 0xf1 ≤ n ∧ n ≤ 0xf3 then some ⟨byte, 1, 3, 0x80, 0xbf, n - 0xf0⟩
  else none

/-- How far decoding has come: the bytes read, the characters, newest first, and the character
at hand, if any. -/
structure Decoder where
  position : Nat
  done : List Char
  pending : Option Partial

/-- Take in one byte. -/
def Decoder.feed (d : Decoder) (byte : UInt8) : Except Malformed Decoder :=
  match d.pending with
  | none =>
    if byte.toNat < 0x80 then
      .ok { d with position := d.position + 1, done := Char.ofNat byte.toNat :: d.done }
    else
      match Partial.ofLead? byte with
      | some p => .ok { d with position := d.position + 1, pending := some p }
      | none => .error ⟨byte, d.position, 1, .start⟩
  | some p =>
    if p.low ≤ byte.toNat ∧ byte.toNat ≤ p.high then
      let value := p.value * 0x40 + (byte.toNat - 0x80)
      if p.missing = 1 then
        .ok ⟨d.position + 1, Char.ofNat value :: d.done, none⟩
      else
        let p := ⟨p.lead, p.seen + 1, p.missing - 1, 0x80, 0xbf, value⟩
        .ok { d with position := d.position + 1, pending := some p }
    else
      .error ⟨p.lead, d.position - p.seen, p.seen, .continuation⟩

/-- The characters read, unless the last one is cut off. -/
def Decoder.finish (d : Decoder) : Except Malformed (List Char) :=
  match d.pending with
  | none => .ok d.done.reverse
  | some p => .error ⟨p.lead, d.position - p.seen, p.seen, .ending⟩

/-- Decode bytes into the text they stand for. -/
def decode (bytes : List UInt8) : Except Malformed String := do
  let decoder ← bytes.foldlM Decoder.feed ⟨0, [], none⟩
  let text ← decoder.finish
  return String.ofList text

end PlusLisp.Text.Utf8
