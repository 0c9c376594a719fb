/-
  Reading UTF-8, with a report of the first fault.

  The first byte of a sequence tells how many bytes follow
  it and which values the second byte may have, so that each
  character has one form and no surrogate has any.

  Key definitions include:
    * `Text.Utf8.Lead`
    * `Text.Utf8.lead?`
    * `Text.Utf8.Fault`
    * `Text.Utf8.decode`
-/

namespace Lox

namespace Text

namespace Utf8

------------------------------------------------------------
-- First Bytes
------------------------------------------------------------

/-
  What a first byte announces: its share of the code point,
  the values allowed for the second byte, and the number of
  bytes after that one.
-/
structure Lead where
  bits : Nat
  low : Nat
  high : Nat
  more : Nat

/-
  The sequences of two bytes and more, by first byte.
-/
def lead?
    (b : Nat) : Option Lead :=
  if 0xc2 ≤ b ∧ b ≤ 0xdf then some ⟨b - 0xc0, 0x80, 0xbf, 0⟩
  else if b = 0xe0 then some ⟨0, 0xa0, 0xbf, 1⟩
  else if b = 0xed then some ⟨0xd, 0x80, 0x9f, 1⟩
  else if 0xe1 ≤ b ∧ b ≤ 0xef then
    some ⟨b - 0xe0, 0x80, 0xbf, 1⟩
  else if b = 0xf0 then some ⟨0, 0x90, 0xbf, 2⟩
  else if b = 0xf4 then some ⟨4, 0x80, 0x8f, 2⟩
  else if 0xf1 ≤ b ∧ b ≤ 0xf3 then
    some ⟨b - 0xf0, 0x80, 0xbf, 2⟩
  else none

------------------------------------------------------------
-- Faults
------------------------------------------------------------

/- Why bytes are not UTF-8. -/
inductive Cause where
  | firstByte
  | laterByte
  | cutShort
deriving DecidableEq

/-
  The first fault: its cause, the bytes of the sequence that
  were read, and how many bytes stand before them.
-/
structure Fault where
  cause : Cause
  bytes : List Nat
  offset : Nat
deriving DecidableEq

namespace Cause

def message : Cause → String
  | firstByte => "invalid start byte"
  | laterByte => "invalid continuation byte"
  | cutShort => "unexpected end of data"

end Cause

namespace Fault

/- The bytes of a fault and where they stand. -/
def place
    (f : Fault) : String :=
  match f.bytes with
  | [b] =>
      "byte 0x" ++ String.ofList (hexPair b) ++
        " in position " ++ toString f.offset
  | bs =>
      "bytes in position " ++ toString f.offset ++ "-" ++
        toString (f.offset + bs.length - 1)
where
  /- The two digits of a byte, which is 16 or more here. -/
  hexPair
      (b : Nat) : List Char :=
    Nat.toDigits 16 b

/- The report of a fault. -/
def message
    (f : Fault) : String :=
  "'utf-8' codec can't decode " ++ f.place ++ ": " ++
    f.cause.message

end Fault

------------------------------------------------------------
-- Decoding
------------------------------------------------------------

/-
  Read the rest of a sequence: `low` and `high` bound its
  next byte and `more` bytes follow that one.  `seen` holds
  the bytes read so far, the last one first.
-/
def continued
    (code low high : Nat)
    (seen : List Nat) :
    (more : Nat) → List Nat →
      Except (Cause × List Nat) (Char × List Nat)
  | _, [] => .error (.cutShort, seen.reverse)
  | more, b :: rest =>
      if low ≤ b ∧ b ≤ high then
        let code := code * 64 + (b - 0x80)
        match more with
        | 0 => .ok (Char.ofNat code, rest)
        | more + 1 =>
            continued code 0x80 0xbf (b :: seen) more rest
      else .error (.laterByte, seen.reverse)

/- A continued sequence leaves fewer bytes. -/
theorem length_lt_of_continued
    (code low high : Nat)
    (seen : List Nat)
    (more : Nat)
    (bs : List Nat)
    (c : Char)
    (rest : List Nat)
    (h :
      continued code low high seen more bs =
        .ok (c, rest)) :
    rest.length < bs.length := by
  induction bs generalizing code low high seen more with
  | nil => simp [continued] at h
  | cons b bs ih =>
      unfold continued at h
      split at h
      · cases more with
        | zero =>
            simp only [Except.ok.injEq, Prod.mk.injEq] at h
            simp [← h.2]
        | succ more =>
            have hLess := ih _ _ _ _ _ h
            simp only [List.length_cons]
            omega
      · simp at h

/- Read one character off the front of some bytes. -/
def character
    (b : Nat)
    (rest : List Nat) :
    Except (Cause × List Nat) (Char × List Nat) :=
  if b < 0x80 then .ok (Char.ofNat b, rest)
  else
    match lead? b with
    | none => .error (.firstByte, [b])
    | some l => continued l.bits l.low l.high [b] l.more rest

/- A character takes at least the byte it starts with. -/
theorem length_le_of_character
    (b : Nat)
    (bs : List Nat)
    (c : Char)
    (rest : List Nat)
    (h : character b bs = .ok (c, rest)) :
    rest.length ≤ bs.length := by
  unfold character at h
  split at h
  · simp only [Except.ok.injEq, Prod.mk.injEq] at h
    simp [← h.2]
  · split at h
    · simp at h
    · exact Nat.le_of_lt
        (length_lt_of_continued _ _ _ _ _ _ _ _ h)

/- The characters of some bytes that stand at `offset`. -/
def decodeFrom
    (offset : Nat) : List Nat → Except Fault (List Char)
  | [] => .ok []
  | b :: bs =>
      match h : character b bs with
      | .error (cause, bytes) => .error ⟨cause, bytes, offset⟩
      | .ok (c, rest) => do
          have _hRest := length_le_of_character b bs c rest h
          let taken := bs.length + 1 - rest.length
          let cs ← decodeFrom (offset + taken) rest
          return c :: cs
termination_by bs => bs.length
decreasing_by
  simp only [List.length_cons]
  omega

/- The characters that some bytes encode. -/
def decode
    (bytes : List UInt8) : Except Fault (List Char) :=
  decodeFrom 0 (bytes.map (·.toNat))

end Utf8

end Text

end Lox
