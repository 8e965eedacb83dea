import Rapido.KvConf

-- Texts that refer to variables: some literal text, then references, each with
-- the literal text that follows it.
namespace Rapido.Templates
open Text KvConf

structure Template where
  head : Str
  refs : List (Str × Str)
deriving DecidableEq, Repr

def refText : List (Str × Str) → Str
  | [] => []
  | (key,literal) :: rest => dollar :: openBrace :: (key ++ closeBrace :: (literal ++ refText rest))

def Template.text (t : Template) : Str := t.head ++ refText t.refs

-- Every reference replaced by its value, every literal kept.
def fill (map : Map) : List (Str × Str) → Option Str
  | [] => some []
  | (key,literal) :: rest => do
    let value ← map key
    let more ← fill map rest
    return value ++ literal ++ more

def Template.expand (map : Map) (t : Template) : Option Str := (fill map t.refs).map (t.head ++ ·)

variable {key front rest literal value want : Str} {b : Char} {refs : List (Str × Str)}

end Rapido.Templates
