/-
# UTF-8, taken apart leniently

A byte string is read sequence by sequence. A well-formed sequence stays; of what is none,
the longest part that could begin one is replaced by the replacement character. Different
byte strings can so become the same text.
-/
import Tidefs.Lib.Codec

namespace Tidefs.Utf8

open Codec List

/-- A continuation byte; the end of the input is none. -/
def isTail (b : Option UInt8) : Bool := b.any fun b => 0x80 ≤ b && b ≤ 0xBF

/-- The second byte that the first one of a longer sequence allows. -/
def allows (first : UInt8) (second : Option UInt8) : Bool := second.any fun b =>
  if first = 0xE0 then 0xA0 ≤ b && b ≤ 0xBF
  else if first = 0xED then 0x80 ≤ b && b ≤ 0x9F
  else if first = 0xF0 then 0x90 ≤ b && b ≤ 0xBF
  else if first = 0xF4 then 0x80 ≤ b && b ≤ 0x8F
  else 0x80 ≤ b && b ≤ 0xBF

/-- Whether a sequence begins with this byte and the bytes behind it, and how many bytes behind it are part of it or of
what looked like one. -/
def scan (first : UInt8) (rest : Bytes) : Bool × ℕ :=
  if first < 0x80 then (true, 0)
  else if 0xC2 ≤ first && first ≤ 0xDF then if isTail rest[0]? then (true, 1) else (false, 0)
  else if 0xE0 ≤ first && first ≤ 0xEF then
    if !allows first rest[0]? then (false, 0) else if isTail rest[1]? then (true, 2) else (false, 1)
  else if 0xF0 ≤ first && first ≤ 0xF4 then
    if !allows first rest[0]? then (false, 0)
    else if !isTail rest[1]? then (false, 1)
    else if isTail rest[2]? then (true, 3) else (false, 2)
  else (false, 0)

/-- The replacement character. -/
def replacement : Bytes := [0xEF, 0xBF, 0xBD]

/-- The text with so many bytes of a sequence still to pass over. -/
def lossyFrom : ℕ → Bytes → Bytes
  | _, [] => []
  | passed + 1, _ :: rest => lossyFrom passed rest
  | 0, first :: rest =>
    let (ok, n) := scan first rest
    (if ok then first :: rest.take n else replacement) ++ lossyFrom n rest

def lossy (bytes : Bytes) : Bytes := lossyFrom 0 bytes

def validFrom : ℕ → Bytes → Bool
  | _, [] => true
  | passed + 1, _ :: rest => validFrom passed rest
  | 0, first :: rest => (scan first rest).1 && validFrom (scan first rest).2 rest

def valid (bytes : Bytes) : Bool := validFrom 0 bytes

end Tidefs.Utf8
