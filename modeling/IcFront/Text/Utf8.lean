/-!
# Reading UTF-8

`Utf8.decode` reads a sequence of bytes as UTF-8. A sequence that is no UTF-8 is
refused at the first byte that starts no character: either it can never start
one, or a byte after it cannot continue one, or the bytes end too early. The
fault covers the bytes that still fitted.
-/

namespace IcFront

namespace Utf8

/-- Why bytes are no UTF-8. -/
inductive Reason
  | start
  | continuation
  | endOfData
  deriving DecidableEq, Repr

/-- The wording of a reason. -/
def Reason.text : Reason → String
  | start => "invalid start byte"
  | continuation => "invalid continuation byte"
  | endOfData => "unexpected end of data"

/-- Bytes that are no UTF-8: the first one, its position, how many there are,
and what is wrong. -/
structure Fault where
  byte : UInt8
  position : Nat
  length : Nat
  reason : Reason
  deriving DecidableEq, Repr

/-- The wording of a fault. -/
def Fault.message (f : Fault) : String :=
  let place :=
    if f.length = 1 then
      let n := f.byte.toNat
      "byte 0x" ++ String.ofList [Nat.digitChar (n / 16), Nat.digitChar (n % 16)] ++
        " in position " ++ toString f.position
    else
      "bytes in position " ++ toString f.position ++ "-" ++
        toString (f.position + f.length - 1)
  "'utf-8' codec can't decode " ++ place ++ ": " ++ f.reason.text

/-- What the first byte of a character says: the value of its own bits, the
bytes that must follow, and the least and greatest value of the next one. -/
structure Lead where
  bits : Nat
  more : Nat
  least : Nat
  greatest : Nat

/-- The lead of a byte; none if no character starts with it. The bounds keep out
longer spellings than needed, surrogates, and numbers beyond the last
character. -/
def lead? (byte : UInt8) : Option Lead :=
  let n := byte.toNat
  if n < 0x80 then some ⟨n, 0, 0, 0⟩
  else if n < 0xc2 then none
  else if n < 0xe0 then some ⟨n - 0xc0, 1, 0x80, 0xbf⟩
  else if n < 0xf0 then
    some ⟨n - 0xe0, 2, if n = 0xe0 then 0xa0 else 0x80, if n = 0xed then 0x9f else 0xbf⟩
  else if n < 0xf5 then
    some ⟨n - 0xf0, 3, if n = 0xf0 then 0x90 else 0x80, if n = 0xf4 then 0x8f else 0xbf⟩
  else none

/-- Reads the bytes that continue a character: the first between two bounds, any
others between 0x80 and 0xbf. Gives the value and the rest, or the number of
bytes that fitted and the reason. -/
def continue? (more least greatest value : Nat) (bytes : List UInt8) :
    Except (Nat × Reason) (Nat × List UInt8) :=
  match more with
  | 0 => .ok (value, bytes)
  | more + 1 =>
    match bytes with
    | [] => .error (0, .endOfData)
    | b :: rest =>
      if least ≤ b.toNat ∧ b.toNat ≤ greatest then
        match continue? more 0x80 0xbf (64 * value + (b.toNat - 0x80)) rest with
        | .ok r => .ok r
        | .error (n, reason) => .error (n + 1, reason)
      else .error (0, .continuation)

theorem continue?_length {more least greatest value v : Nat} {bytes rest : List UInt8}
    (h : continue? more least greatest value bytes = .ok (v, rest)) :
    rest.length ≤ bytes.length := by
  induction more generalizing least greatest value bytes with
  | zero =>
    simp only [continue?, Except.ok.injEq, Prod.mk.injEq] at h
    exact Nat.le_of_eq (congrArg List.length h.2.symm)
  | succ more ih =>
    cases bytes with
    | nil => simp [continue?] at h
    | cons b bytes =>
      simp only [continue?] at h
      split at h
      · split at h
        · next r hr =>
          rw [Except.ok.injEq] at h
          have := ih (h ▸ hr)
          simp only [List.length_cons]
          omega
        · simp at h
      · simp at h

/-- Reads bytes that stand at a position. -/
def decodeFrom (position : Nat) (bytes : List UInt8) : Except Fault (List Char) :=
  match bytes with
  | [] => .ok []
  | b :: bytes =>
    match lead? b with
    | none => .error ⟨b, position, 1, .start⟩
    | some l =>
      match _h : continue? l.more l.least l.greatest l.bits bytes with
      | .error (n, reason) => .error ⟨b, position, n + 1, reason⟩
      | .ok (value, rest) => do
        let cs ← decodeFrom (position + l.more + 1) rest
        return Char.ofNat value :: cs
termination_by bytes.length
decreasing_by
  have := continue?_length _h
  simp only [List.length_cons]
  omega

/-- Reads bytes as UTF-8. -/
def decode (bytes : List UInt8) : Except Fault (List Char) := decodeFrom 0 bytes

end Utf8

end IcFront
