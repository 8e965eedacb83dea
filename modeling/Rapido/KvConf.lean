import Rapido.Io
import Rapido.Text

-- src/kv-conf: rapido.conf and net-conf parsing.
namespace Rapido.KvConf
open Text

def CONF_LINE_MAX : Nat := 1024 * 100

abbrev backslash : Char := '\x5c'
abbrev doubleQuote : Char := '\x22'
abbrev singleQuote : Char := '\x27'
abbrev space : Char := ' '
abbrev tab : Char := '\t'
abbrev dollar : Char := '$'
abbrev newline : Char := '\n'
abbrev openBrace : Char := '\x7b'
abbrev closeBrace : Char := '\x7d'

-- HashMap<String, String>
abbrev Map := Str → Option Str

def Map.empty : Map := fun _ => none
def Map.insert (map : Map) (key val : Str) : Map := Function.update map key (some val)

inductive KvError where
  | err (msg : String)
  | panic
deriving DecidableEq, Repr

def special (c : Char) : Bool := [backslash,doubleQuote,singleQuote,space,tab,dollar].contains c
def brace (c : Char) : Bool := c == openBrace || c == closeBrace
def invalidInKey (c : Char) : Bool :=
  [backslash,'/',doubleQuote,singleQuote,space,tab,dollar,'#','.','\x60'].contains c

-- Only the first piece after the closing brace is kept.
def kvVarSub (block : Str) (map : Map) : Except KvError Str :=
  match splitInclusive brace block with
  | [] => .error (.err "variables must be wrapped in \x7b\x7d braces")
  | first :: rest =>
    if first ≠ [openBrace] then .error (.err "variables must be wrapped in \x7b\x7d braces") else
    match rest with
    | [] => .error (.err "no closing brace for variable")
    | var :: rest =>
      if endsWith closeBrace var then
        match map var.dropLast with
        | some subbed => .ok (subbed ++ rest.headD [])
        | none => .error (.err "invalid variable substitution: not seen")
      else .error (.err "no closing brace for variable")

inductive Quoted where
  | no
  | single
  | double
deriving DecidableEq, Repr

structure LineState where
  inquote : Quoted := .no
  escapeNext : Bool := false
  commentNext : Bool := false
  varNext : Bool := false
  unquotedVal : Str := []
deriving DecidableEq, Repr

inductive Flow where
  | brk (s : LineState)
  | cont (s : LineState)
deriving DecidableEq, Repr

def LineState.push (s : LineState) (text : Str) : LineState := {s with unquotedVal:=s.unquotedVal ++ text}

-- The block after a backslash.
def escapedBlock (s : LineState) (quoteblock : Str) : Except KvError Flow :=
  if (quoteblock.head?.map special).getD false then
    let s := {s with escapeNext:=false}.push quoteblock
    if utf8Len quoteblock ≠ 1 then .error (.err "expected escaped char at split boundary") else .ok (.cont s)
  else if startsWith newline quoteblock ∧ s.inquote ≠ .no then .ok (.brk s)
  else .error (.err "bad escape")

-- A block after unquoted whitespace.
def commentBlock (s : LineState) (quoteblock : Str) : Except KvError Flow :=
  if s.inquote ≠ .no then .error .panic
  else if startsWith '#' quoteblock then .ok (.brk s)
  else if trimStart quoteblock = [] then .ok (.cont s)
  else .error (.err "unexpected whitespace")

def plainBlock (s : LineState) (quoteblock : Str) : LineState :=
  if endsWith backslash quoteblock ∧ s.inquote ≠ .single then
    {s with escapeNext:=true}.push quoteblock.dropLast
  else if endsWith doubleQuote quoteblock then
    match s.inquote with
    | .no => {s with inquote:=.double}.push quoteblock.dropLast
    | .double => {s with inquote:=.no}.push quoteblock.dropLast
    | .single => s.push quoteblock
  else if endsWith singleQuote quoteblock then
    match s.inquote with
    | .no => {s with inquote:=.single}.push quoteblock.dropLast
    | .single => {s with inquote:=.no}.push quoteblock.dropLast
    | .double => s.push quoteblock
  else if (endsWith space quoteblock ∨ endsWith tab quoteblock) ∧ s.inquote = .no then
    {s with commentNext:=true}.push quoteblock.dropLast
  else if endsWith dollar quoteblock ∧ s.inquote ≠ .single then
    {s with varNext:=true}.push quoteblock.dropLast
  else if endsWith newline quoteblock then s.push quoteblock.dropLast
  else s.push quoteblock

def blockStep (varmap : Map) (s : LineState) (quoteblock : Str) : Except KvError Flow :=
  if s.escapeNext then escapedBlock s quoteblock
  else if s.commentNext then commentBlock s quoteblock
  else if s.varNext then
    match kvVarSub quoteblock varmap with
    | .error e => .error e
    | .ok varGot => .ok (.cont (plainBlock {s with varNext:=false} varGot))
  else .ok (.cont (plainBlock s quoteblock))

def blockLoop (varmap : Map) (s : LineState) : List Str → Except KvError LineState
  | [] => .ok s
  | quoteblock :: rest => match blockStep varmap s quoteblock with
    | .error e => .error e
    | .ok (.brk s) => .ok s
    | .ok (.cont s) => blockLoop varmap s rest

-- What stays in the buffer of a value whose quote is still open: newline and
-- spaces collapse into one space, unless escaped within double quotes.
def retained (inquote : Quoted) (trimmedLine : Str) : Str :=
  let ml := trimEnd trimmedLine
  if endsWith backslash ml ∧ inquote = .double then
    let cut := ml.dropLast
    if (trimEnd cut).length = cut.length then trimEnd cut else trimEnd cut ++ [space]
  else ml ++ [space]

-- The result and the line buffer left behind. An error leaves the buffer alone.
def kvProcess (line : Str) (varmap : Map) : Except KvError (Option (Str × Str)) × Str :=
  let trimmedLine := trimStart line
  if trimmedLine = [] ∨ startsWith '#' trimmedLine then (.ok none,[])
  else match splitOnce '=' trimmedLine with
    | none => (.error (.err "missing ="),line)
    | some (key,val) =>
      if key = [] then (.error (.err "empty key"),line)
      else if key.any invalidInKey then (.error (.err "invalid key"),line)
      else match blockLoop varmap {} (splitInclusive special val) with
        | .error e => (.error e,line)
        | .ok s =>
          if s.inquote ≠ .no then (.ok none,retained s.inquote trimmedLine)
          else (.ok (some (key,s.unquotedVal)),[])

-- The lines that successive read_line calls append. A text is UTF-8;
-- read_line fails on anything else.
def linesOf (text : Str) : List Str := splitInclusive (· == newline) text

-- `rest` is what the reader still holds, cut into lines.
def kvReadLine (linenum : Nat) (rest : List Str) (buf : Str) : Except IoError (Nat × List Str × Str) :=
  match rest with
  | [] => if buf.length ≠ 0 then .error ⟨.invalidInput,s!"line {linenum}: unexpected EOF"⟩ else .ok (0,[],buf)
  | line :: rest =>
    if utf8Len line > CONF_LINE_MAX then .error ⟨.invalidInput,s!"line {linenum}: too long"⟩
    else .ok (utf8Len line,rest,buf ++ line)

def kvFault (linenum : Nat) : KvError → IoError
  | .err m => ⟨.invalidInput,s!"line {linenum}: {m}"⟩
  | .panic => ⟨.panic,"assert!(inquote == Quoted::No)"⟩

-- kv_conf_process_append from a given line on, with the buffer so far. The map
-- keeps what the lines before a failing one assigned.
def appendLines (linenum : Nat) (buffer : Str) (map : Map) : List Str → Except IoError Unit × Map
  | [] => match kvReadLine linenum [] buffer with
    | .error e => (.error e,map)
    | .ok _ => (.ok (),map)
  | line :: rest => match kvReadLine linenum (line :: rest) buffer with
    | .error e => (.error e,map)
    | .ok (_,_,buffer) => match kvProcess buffer map with
      | (.error e,_) => (.error (kvFault linenum e),map)
      | (.ok (some (k,v)),buffer) => appendLines (linenum+1) buffer (map.insert k v) rest
      | (.ok none,buffer) => appendLines (linenum+1) buffer map rest

def kvConfProcessAppend (text : Str) (map : Map) : Except IoError Unit × Map := appendLines 1 [] map (linesOf text)

-- kv_conf_process_append_separate: variables are looked up in `varmap`, and
-- what the lines assign goes to `map`.
def separateLines (linenum : Nat) (buffer : Str) (varmap map : Map) : List Str → Except IoError Unit × Map
  | [] => match kvReadLine linenum [] buffer with
    | .error e => (.error e,map)
    | .ok _ => (.ok (),map)
  | line :: rest => match kvReadLine linenum (line :: rest) buffer with
    | .error e => (.error e,map)
    | .ok (_,_,buffer) => match kvProcess buffer varmap with
      | (.error e,_) => (.error (kvFault linenum e),map)
      | (.ok (some (k,v)),buffer) => separateLines (linenum+1) buffer varmap (map.insert k v) rest
      | (.ok none,buffer) => separateLines (linenum+1) buffer varmap map rest

def kvConfProcessAppendSeparate (text : Str) (varmap map : Map) : Except IoError Unit × Map :=
  separateLines 1 [] varmap map (linesOf text)

def kvConfProcess (text : Str) : Except IoError Map :=
  match kvConfProcessAppend text .empty with
  | (.ok (),map) => .ok map
  | (.error e,_) => .error e

-- What the map is after a line, from what the line assigned.
def assignResult (map : Map) : Option (Str × Str) → Map
  | none => map
  | some (k,v) => map.insert k v

theorem append_step (short : utf8Len line ≤ CONF_LINE_MAX) (processed : kvProcess (buffer ++ line) map = (.ok result,left))
    (linenum : Nat) (rest : List Str) :
    appendLines linenum buffer map (line :: rest) = appendLines (linenum+1) left (assignResult map result) rest := by
  simp only [appendLines,kvReadLine,if_neg (Nat.not_lt.mpr short),processed]
  cases result with
  | none => rfl
  | some pair => rfl

-- A text is read to its end only when no line of it is too long or faulty.
theorem append_inverted (ran : appendLines linenum buffer map (line :: rest) = (.ok (),final)) :
    utf8Len line ≤ CONF_LINE_MAX ∧ ∃ result left, kvProcess (buffer ++ line) map = (.ok result,left) ∧
      appendLines (linenum+1) left (assignResult map result) rest = (.ok (),final) := by
  unfold appendLines kvReadLine at ran
  by_cases long : utf8Len line > CONF_LINE_MAX
  · simp [long] at ran
  · simp only [long,if_false] at ran
    refine ⟨Nat.not_lt.mp long,?_⟩
    split at ran
    · cases ran
    · rename_i processed
      exact ⟨_,_,processed,ran⟩
    · rename_i processed
      exact ⟨_,_,processed,ran⟩

theorem append_done (ran : appendLines linenum buffer map [] = (.ok (),final)) : buffer = [] ∧ final = map := by
  unfold appendLines kvReadLine at ran
  by_cases empty : buffer = []
  · simp only [empty] at ran
    cases ran
    exact ⟨empty,rfl⟩
  · simp [empty] at ran

end Rapido.KvConf
