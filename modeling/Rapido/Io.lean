import Rapido.Effect
import Mathlib.Algebra.Order.Ring.Nat

-- The part of std::io the sources use.
namespace Rapido

inductive ErrorKind where
  | notFound
  | invalidInput
  | invalidData
  | unexpectedEof
  | unsupported
  | brokenPipe
  | other (code : Nat)
  -- not kinds of io::Error: a panic unwinds through every `?`, and a loop of the
  -- model may be given too little fuel
  | outOfFuel
  | panic
deriving DecidableEq, Repr

structure IoError where
  kind : ErrorKind
  msg : String
deriving DecidableEq, Repr

def IoError.ofKind (kind : ErrorKind) : IoError := ⟨kind,""⟩

-- A file or cursor opened for reading. The position may lie past the end.
structure Reader where
  data : List UInt8
  pos : Nat
deriving DecidableEq, Repr

namespace Reader

-- read_exact: a short read leaves the position at the end of the data.
def readExact (r : Reader) (n : Nat) : Except IoError (List UInt8) × Reader :=
  if r.pos + n ≤ r.data.length then (.ok ((r.data.drop r.pos).take n),{r with pos:=r.pos+n})
  else (.error ⟨.unexpectedEof,"failed to fill whole buffer"⟩,{r with pos:=max r.pos r.data.length})

-- seek(SeekFrom::Current(n)) with n ≥ 0: fails when the offset leaves i64.
def seekCurrent (r : Reader) (n : Nat) : Except IoError Unit × Reader :=
  if r.pos + n < 2^63 then (.ok (),{r with pos:=r.pos+n})
  else (.error ⟨.invalidInput,"invalid seek to a negative or overflowing position"⟩,r)

end Reader
end Rapido
