/-!
Text and bytes. File names and file contents are bytes; patterns and messages are characters. UTF-8
connects the two.

* `encode` writes characters as bytes.
* `decode?` reads bytes back and fails on anything that is not well-formed UTF-8.
* `decodeLossy` always succeeds: each ill-formed stretch becomes one replacement character.

Main statement: plain ASCII bytes are read as the characters of the same code.
-/
namespace TreeGlob

/-- Text is the list of its characters; a position in a text counts characters. -/
abbrev Text := List Char

abbrev Bytes := List UInt8

namespace Utf8

def encodeChar (c : Char) : Bytes :=
  let n := c.toNat
  if n < 0x80 then [.ofNat n]
  else if n < 0x800 then [.ofNat (0xC0 + n / 64), .ofNat (0x80 + n % 64)]
  else if n < 0x10000 then
    [.ofNat (0xE0 + n / 4096), .ofNat (0x80 + n / 64 % 64), .ofNat (0x80 + n % 64)]
  else
    [.ofNat (0xF0 + n / 262144), .ofNat (0x80 + n / 4096 % 64), .ofNat (0x80 + n / 64 % 64),
      .ofNat (0x80 + n % 64)]

def encode (t : Text) : Bytes := t.flatMap encodeChar

/-- The bytes that may follow the first byte `lead` of a longer character. The bounds leave out
overlong forms, surrogates and code points past the last one. -/
def secondByte (lead : Nat) : Nat × Nat :=
  if lead = 0xE0 then (0xA0, 0xBF)
  else if lead = 0xED then (0x80, 0x9F)
  else if lead = 0xF0 then (0x90, 0xBF)
  else if lead = 0xF4 then (0x80, 0x8F)
  else (0x80, 0xBF)

/-- How many bytes follow the first byte `lead`, if it can start a character. -/
def trailing (lead : Nat) : Option Nat :=
  if lead < 0x80 then some 0
  else if 0xC2 ≤ lead ∧ lead ≤ 0xDF then some 1
  else if 0xE0 ≤ lead ∧ lead ≤ 0xEF then some 2
  else if 0xF0 ≤ lead ∧ lead ≤ 0xF4 then some 3
  else none

/-- The bits that the first byte of a character of `1 + more` bytes contributes. -/
def leadBits (lead : Nat) : Nat → Nat
  | 0 => lead
  | 1 => lead - 0xC0
  | 2 => lead - 0xE0
  | _ => lead - 0xF0

/-- Takes up to `more` following bytes, the first of them within `bounds`, and adds their bits to
`code`. Gives the code point if all were there, and the number of bytes taken in any case. -/
def takeTrailing (code : Nat) (bounds : Nat × Nat) : Nat → Bytes → Option Nat × Nat
  | 0, _ => (some code, 0)
  | _ + 1, [] => (none, 0)
  | more + 1, b :: rest =>
    if bounds.1 ≤ b.toNat ∧ b.toNat ≤ bounds.2 then
      let (found, taken) := takeTrailing (code * 64 + (b.toNat - 0x80)) (0x80, 0xBF) more rest
      (found, taken + 1)
    else (none, 0)

/-- Reads the character that starts with `b`: the character, unless the bytes are ill-formed, and
the number of bytes after `b` that belong to it. -/
def readChar (b : UInt8) (rest : Bytes) : Option Char × Nat :=
  match trailing b.toNat with
  | none => (none, 0)
  | some more =>
    let (code, taken) := takeTrailing (leadBits b.toNat more) (secondByte b.toNat) more rest
    (code.map Char.ofNat, taken)

/-- The characters of a byte string, `none` for each ill-formed stretch. The first `skip` bytes
belong to a character already read. -/
def units : (skip : Nat) → Bytes → List (Option Char)
  | _, [] => []
  | skip + 1, _ :: rest => units skip rest
  | 0, b :: rest => (readChar b rest).1 :: units (readChar b rest).2 rest

def decode? (bs : Bytes) : Option Text := (units 0 bs).mapM id

def decodeLossy (bs : Bytes) : Text := (units 0 bs).map (·.getD '\uFFFD')

theorem trailing_ascii {lead : Nat} (h : lead < 0x80) : trailing lead = some 0 := by
  rw [trailing, if_pos h]

theorem readChar_ascii {b : UInt8} (h : b.toNat < 0x80) (rest : Bytes) :
    readChar b rest = (some (Char.ofNat b.toNat), 0) := by
  unfold readChar
  rewrite [trailing_ascii h]
  exact congrArg (·, 0) (Option.map_some ..)

end Utf8

end TreeGlob
