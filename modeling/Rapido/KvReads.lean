import Rapido.KvConf

-- Values read piece by piece: what stands before a piece matters only through
-- the state it leaves.
namespace Rapido.KvConf
open Text
variable {map : Map} {s t u : LineState} {front text more : Str} {c d : Char}

def readText (map : Map) (s : LineState) (text : Str) : Except KvError LineState :=
  blockLoop map s (splitInclusive special text)

-- Whatever follows the text is read from the second state.
def Reads (map : Map) (s : LineState) (text : Str) (t : LineState) : Prop :=
  ∀ tail, readText map s (text ++ tail) = readText map t tail

theorem Reads.refl (map : Map) (s : LineState) : Reads map s [] s := fun _ => rfl

theorem Reads.append (first : Reads map s text t) (second : Reads map t more u) : Reads map s (text ++ more) u := by
  intro tail
  rw [List.append_assoc,first,second]

def Plain (s : Str) : Prop := ∀ b ∈ s, special b = false

theorem Plain.snoc (plain : Plain front) (ordinary : special c = false) : Plain (front ++ [c]) := by
  intro b member
  rcases List.mem_append.mp member with inside | last
  · exact plain b inside
  · rw [List.mem_singleton.mp last]
    exact ordinary

theorem plain_nil : Plain [] := by
  intro b member
  cases member

@[simp] theorem endsWith_snoc (c d : Char) (front : Str) : endsWith d (front ++ [c]) = (c == d) := by
  simp [endsWith]

-- A block that ends at the first special character.
theorem readText_block (map : Map) (plain : Plain front) (ends : special c = true) (s : LineState) (tail : Str) :
    readText map s (front ++ c :: tail) = match blockStep map s (front ++ [c]) with
      | .error e => .error e
      | .ok (.brk s) => .ok s
      | .ok (.cont s) => readText map s tail := by
  unfold readText
  rcases stepped : blockStep map s (front ++ [c]) with e | (t | t) <;>
    simp only [splitInclusive_piece plain ends,blockLoop,stepped]

-- The last block of a value may end in anything else.
theorem readText_plain (map : Map) (plain : Plain text) (filled : text ≠ []) (s : LineState) :
    readText map s text = match blockStep map s text with
      | .error e => .error e
      | .ok (.brk s) => .ok s
      | .ok (.cont s) => .ok s := by
  unfold readText
  rcases stepped : blockStep map s text with e | (t | t) <;>
    simp only [splitInclusive_plain plain,if_neg filled,blockLoop,stepped]

theorem special_cases (found : special c = true) :
    c = backslash ∨ c = doubleQuote ∨ c = singleQuote ∨ c = space ∨ c = tab ∨ c = dollar := by
  simpa [special] using found

-- Nothing is pending from the block before.
structure Ready (s : LineState) : Prop where
  unescaped : s.escapeNext = false
  uncommented : s.commentNext = false
  unset : s.varNext = false

theorem Ready.push (ready : Ready s) (text : Str) : Ready (s.push text) := ⟨ready.unescaped,ready.uncommented,ready.unset⟩

theorem Ready.step (ready : Ready s) (map : Map) (block : Str) : blockStep map s block = .ok (.cont (plainBlock s block)) := by
  simp [blockStep,ready.unescaped,ready.uncommented,ready.unset]

-- A block is added to the value no matter how much of it was added before.
theorem plainBlock_push (filled : more ≠ []) (s : LineState) (front : Str) :
    plainBlock s (front ++ more) = plainBlock (s.push front) more := by
  have ends : ∀ c, endsWith c (front ++ more) = endsWith c more := fun c => by
    rw [endsWith,endsWith,List.getLast?_append_of_ne_nil _ filled]
  have cut : (front ++ more).dropLast = front ++ more.dropLast := List.dropLast_append_of_ne_nil filled
  obtain ⟨quote,escape,comment,var,got⟩ := s
  cases quote <;> simp [plainBlock,LineState.push,ends,cut]

-- The last piece of a value without special characters.
theorem plainBlock_keeps (plain : Plain front) (clean : newline ∉ front) (s : LineState) : plainBlock s front = s.push front := by
  have last : ∀ d, special d = true ∨ d = newline → endsWith d front = false := by
    intro d kind
    apply Bool.eq_false_iff.mpr
    intro ends
    have member : d ∈ front := List.mem_of_getLast? (by simpa [endsWith] using ends)
    rcases kind with found | rfl
    · exact absurd found (by rw [plain d member]; simp)
    · exact clean member
  simp [plainBlock,last backslash (.inl rfl),last doubleQuote (.inl rfl),last singleQuote (.inl rfl),last space (.inl rfl),
    last tab (.inl rfl),last dollar (.inl rfl),last newline (.inr rfl)]

theorem reads_plain (ready : Ready s) (plain : Plain text) (clean : newline ∉ text) : Reads map s text (s.push text) := by
  intro tail
  by_cases ordinary : Plain tail
  · have whole : Plain (text ++ tail) := by
      intro b member
      rcases List.mem_append.mp member with first | second
      · exact plain b first
      · exact ordinary b second
    by_cases none : tail = []
    · rw [none,List.append_nil]
      by_cases empty : text = []
      · simp [empty,LineState.push]
      · rw [readText_plain map plain empty,ready.step,plainBlock_keeps plain clean]
        rfl
    · rw [readText_plain map whole (by simp [none]),readText_plain map ordinary none,ready.step,(ready.push text).step,
        plainBlock_push none]
  · obtain ⟨c,inside,found⟩ : ∃ c ∈ tail, special c = true := by simpa [Plain] using ordinary
    obtain ⟨front,d,rest,equal,before,ends⟩ := first_found inside found
    have whole : Plain (text ++ front) := by
      intro b member
      rcases List.mem_append.mp member with first | second
      · exact plain b first
      · exact before b second
    rw [equal,← List.append_assoc,readText_block map whole ends,readText_block map before ends,ready.step,(ready.push text).step,
      List.append_assoc,plainBlock_push (by simp)]

-- A special character is a block of its own behind what has been read.
theorem reads_special (ends : special c = true) (stepped : blockStep map s [c] = .ok (.cont t)) : Reads map s [c] t := by
  intro tail
  have cut := readText_block map plain_nil ends s tail
  simp only [List.nil_append,stepped] at cut
  exact cut

theorem reads_backslash (ready : Ready s) (quoted : s.inquote ≠ .single) :
    Reads map s [backslash] {s with escapeNext:=true} := by
  apply reads_special rfl
  rw [ready.step]
  simp +decide [plainBlock,quoted,LineState.push]

theorem special_width (ends : special c = true) : utf8Len [c] = 1 := by
  rcases special_cases ends with rfl | rfl | rfl | rfl | rfl | rfl <;> rfl

-- The character behind a backslash.
theorem reads_taken (escaped : s.escapeNext = true) (ends : special c = true) :
    Reads map s [c] ({s with escapeNext:=false}.push [c]) := by
  apply reads_special ends
  simp [blockStep,escaped,escapedBlock,ends,special_width ends]

theorem reads_escaped (ready : Ready s) (quoted : s.inquote ≠ .single) (ends : special c = true) :
    Reads map s [backslash,c] (s.push [c]) := by
  have slash : Reads map s [backslash] {s with escapeNext:=true} := reads_backslash ready quoted
  have pair := slash.append (reads_taken rfl ends)
  have same : {s with escapeNext:=false} = s := by
    obtain ⟨quote,escape,comment,var,got⟩ := s
    cases ready.unescaped
    rfl
  simpa [same] using pair

-- Inside quotes a special character that is neither escaped nor the closing
-- quote stands for itself.
theorem reads_kept (ready : Ready s) (ends : special c = true)
    (kept : (s.inquote = .single ∧ c ≠ singleQuote) ∨
      (s.inquote = .double ∧ c ≠ backslash ∧ c ≠ doubleQuote ∧ c ≠ dollar)) : Reads map s [c] (s.push [c]) := by
  apply reads_special ends
  rw [ready.step]
  obtain ⟨quote,escape,comment,var,got⟩ := s
  rcases kept with ⟨inside,other⟩ | ⟨inside,notEscape,notClose,notVar⟩
  · simp only at inside
    subst inside
    rcases special_cases ends with rfl | rfl | rfl | rfl | rfl | rfl <;> simp_all +decide [plainBlock,LineState.push]
  · simp only at inside
    subst inside
    rcases special_cases ends with rfl | rfl | rfl | rfl | rfl | rfl <;> simp_all +decide [plainBlock,LineState.push]

-- A quote that opens or closes.
theorem reads_turned (ready : Ready s) (turns : (s.inquote = .no ∧ c = doubleQuote ∧ q = .double) ∨
      (s.inquote = .double ∧ c = doubleQuote ∧ q = .no) ∨ (s.inquote = .no ∧ c = singleQuote ∧ q = .single) ∨
      (s.inquote = .single ∧ c = singleQuote ∧ q = .no)) : Reads map s [c] {s with inquote:=q} := by
  have step := ready.step map [c]
  obtain ⟨quote,escape,comment,var,got⟩ := s
  rcases turns with ⟨rfl,rfl,rfl⟩ | ⟨rfl,rfl,rfl⟩ | ⟨rfl,rfl,rfl⟩ | ⟨rfl,rfl,rfl⟩ <;>
  · apply reads_special rfl
    rw [step]
    simp +decide [plainBlock,LineState.push]

theorem readText_nil (map : Map) (s : LineState) : readText map s [] = .ok s := rfl

theorem readText_newline (ready : Ready s) : readText map s [newline] = .ok s := by
  have split : splitInclusive special [newline] = [[newline]] := by decide
  have step : plainBlock s [newline] = s := by simp +decide [plainBlock,LineState.push]
  simp [readText,split,blockLoop,ready.step,step]

end Rapido.KvConf
