import Rapido.KvQuoting
import Rapido.Templates

-- Variables in the values of rapido.conf.
namespace Rapido.KvConf
open Text Templates

variable {map : Map} {key literal front tail got value : Str} {refs : List (Str × Str)} {quote : Quoted} {s t : LineState}

def ending (quoted : Bool) : Str := if quoted then [doubleQuote,newline] else [newline]

def Flow.state : Flow → LineState
  | .brk s => s
  | .cont s => s

-- The blocks that begin with a brace: a brace at the start, or right behind a
-- special character.
def opens : Bool → Str → Nat
  | _,[] => 0
  | start,c :: rest => (if start ∧ c = openBrace then 1 else 0) + opens (special c) rest

end Rapido.KvConf
