/-!
# Text from bytes

`Utf8.decode` reads bytes as text. A sequence that breaks off, or that is no character, becomes one
replacement character, and reading goes on at the byte that broke it.
-/

namespace QuerySheet.Utf8

/-- Stands for bytes that are no text. -/
def replacement : Char := Char.ofNat 0xFFFD

/-- A sequence that has begun: the bits so far, and the ranges of the bytes that must follow. -/
structure Pending where
  bits : Nat
  ranges : List (Nat × Nat)

/-- The range of a byte that continues a sequence. -/
def tail : Nat × Nat := (0x80, 0xBF)

/-- The sequence that a byte begins. The first following byte is limited where the character would
    otherwise have a shorter form, be a surrogate, or be too large. -/
def lead? (b : Nat) : Option Pending :=
  if 0xC2 ≤ b ∧ b ≤ 0xDF then some ⟨b % 0x20, [tail]⟩
  else if b = 0xE0 then some ⟨0, [(0xA0, 0xBF), tail]⟩
  else if b = 0xED then some ⟨0xD, [(0x80, 0x9F), tail]⟩
  else if 0xE1 ≤ b ∧ b ≤ 0xEF then some ⟨b % 0x10, [tail, tail]⟩
  else if b = 0xF0 then some ⟨0, [(0x90, 0xBF), tail, tail]⟩
  else if 0xF1 ≤ b ∧ b ≤ 0xF3 then some ⟨b % 0x8, [tail, tail, tail]⟩
  else if b = 0xF4 then some ⟨4, [(0x80, 0x8F), tail, tail]⟩
  else none

/-- A byte where no sequence is pending: the text it gives, and the sequence it begins. -/
def start (b : Nat) : List Char × Option Pending :=
  if b < 0x80 then ([Char.ofNat b], none)
  else
    match lead? b with
    | some p => ([], some p)
    | none => ([replacement], none)

/-- A byte after a pending sequence, if there is one. -/
def step (pending : Option Pending) (b : Nat) : List Char × Option Pending :=
  match pending with
  | some ⟨bits, (lo, hi) :: more⟩ =>
    if lo ≤ b ∧ b ≤ hi then
      let bits := bits * 0x40 + b % 0x40
      if more.isEmpty then ([Char.ofNat bits], none) else ([], some ⟨bits, more⟩)
    else
      let (text, next) := start b
      (replacement :: text, next)
  | _ => start b

def decodeFrom (pending : Option Pending) : List UInt8 → List Char
  | [] => if pending.isSome then [replacement] else []
  | b :: rest =>
    let (text, next) := step pending b.toNat
    text ++ decodeFrom next rest

/-- The text of bytes. -/
def decode (bytes : List UInt8) : String := String.ofList (decodeFrom none bytes)

end QuerySheet.Utf8
