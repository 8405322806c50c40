import ParticlePatterns.Field.SettingsText.Number

/-!
# Quotations in settings

Texts and bytes stand between double quotes, single characters and single bytes between
single ones. A backslash starts an escape, except in a raw quotation, which ends with as
many marks as it starts with.
-/

set_option autoImplicit false

namespace ParticlePatterns.SettingsText

open Parsing

inductive Quoted
  | text
  | bytes
  | character
  | byte
deriving DecidableEq, Repr

def byte? : List Char → Option UInt8
  | a :: b :: _ =>
      if isHex a && isHex b then some (digitValue a * 16 + digitValue b).toUInt8 else none
  | _ => none

def bytes? : Nat → List Char → Option (List UInt8)
  | 0, _ => some []
  | count + 1, '\\' :: 'x' :: rest =>
      (byte? rest).bind fun first => (bytes? count (rest.drop 2)).map (first :: ·)
  | _, _ => none

def bytesAfter (first : UInt8) : Nat :=
  if first < 0x80 then 0
  else if first < 0xe0 then 1
  else if first < 0xf0 then 2
  else 3

def isEncoded (bytes : List UInt8) : Bool :=
  (String.fromUTF8? ⟨bytes.toArray⟩).isSome

def encodedLength (text : List Char) : Option Nat :=
  (byte? text).bind fun first =>
    ((bytes? (bytesAfter first) (text.drop 2)).filter fun others =>
      isEncoded (first :: others)).map fun others => 2 + 4 * others.length

def codePointLength (text : List Char) : Option Nat :=
  let digits := text.takeWhile isHex
  let code := digits.foldl (fun n c => n * 16 + digitValue c) 0
  if 0 < digits.length ∧ digits.length ≤ 6 ∧ code.isValidChar
      ∧ (text.drop digits.length).head? = some '\x7d' then
    some (digits.length + 1)
  else none

/-- Length of an escape, behind its backslash. Only where much can be quoted may an escape
be the end of a line, or a character be given byte by byte. -/
def escapeLength (kind : Quoted) : List Char → Option Nat
  | 'x' :: rest => match kind with
    | .text => (encodedLength rest).map (· + 1)
    | .character => ((byte? rest).filter (· < 0x80)).map fun _ => 3
    | .bytes | .byte => (byte? rest).map fun _ => 3
  | 'u' :: '\x7b' :: rest =>
      if kind = .byte then none else (codePointLength rest).map (· + 2)
  | '\r' :: '\n' :: _ => if kind = .text ∨ kind = .bytes then some 2 else none
  | '\n' :: _ => if kind = .text ∨ kind = .bytes then some 1 else none
  | c :: _ => if ['"', '\'', '\\', 'n', 'r', 't', '0'].contains c then some 1 else none
  | [] => none

/-- Length of the rest of a quotation, with its closing quote. The first argument counts
characters that belong to an escape. -/
def quotedEnd (kind : Quoted) : Nat → Recogniser
  | _, [] => none
  | inside + 1, _ :: rest => (quotedEnd kind inside rest).map (· + 1)
  | 0, '"' :: _ => some 1
  | 0, '\\' :: rest => match escapeLength kind rest with
    | some n => (quotedEnd kind n rest).map (· + 1)
    | none => none
  | 0, _ :: rest => (quotedEnd kind 0 rest).map (· + 1)

def rawEnd (marks : Nat) : Recogniser
  | [] => none
  | c :: rest =>
      if c = '"' && (List.replicate marks '#').isPrefixOf rest then some (marks + 1)
      else (rawEnd marks rest).map (· + 1)

def long (kind : Quoted) : Recogniser
  | '"' :: rest => (quotedEnd kind 0 rest).map (· + 1)
  | 'r' :: rest =>
      let marks := Recogniser.runLength (· = '#') rest
      match rest.drop marks with
      | '"' :: inside => (rawEnd marks inside).map (· + (marks + 2))
      | _ => none
  | _ => none

def short (kind : Quoted) : Recogniser
  | '\'' :: '\\' :: rest => (escapeLength kind rest).bind fun n =>
      if (rest.drop n).head? = some '\'' then some (n + 3) else none
  | '\'' :: c :: '\'' :: _ => if kind = .byte ∧ 127 < c.toNat then none else some 3
  | _ => none

def byteToken : Recogniser
  | 'b' :: rest => (short .byte rest).map (· + 1)
  | _ => none

def quotation : Recogniser
  | 'b' :: rest => (long .bytes rest).map (· + 1)
  | text => (long .text).orElse (short .character) text

end ParticlePatterns.SettingsText
