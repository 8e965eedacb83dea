import Rapido.Multiline

-- Values in which an escaped backslash was taken for a continuation, so that
-- the escapes behind it are out of step.
namespace Rapido.KvConf
open Text

section
variable {map : Map} {s t : LineState} {front text more val got : Str} {c : Char} {n m : Nat}

theorem first_block (filled : text ≠ []) : ∃ block rest, splitInclusive special text = block :: rest ∧ block.head? = text.head? := by
  have whole := flatten_splitInclusive special text
  cases pieces : splitInclusive special text with
  | nil =>
    rw [pieces] at whole
    exact absurd whole.symm filled
  | cons block rest =>
    have some : block ≠ [] := splitInclusive_ne_nil (by rw [pieces]; exact List.mem_cons_self)
    refine ⟨block,rest,rfl,?_⟩
    rw [← whole,pieces]
    cases block with
    | nil => exact absurd rfl some
    | cons b block => rfl

theorem readText_fails (filled : text ≠ []) (fails : ∀ block, block.head? = text.head? → ∃ e, blockStep map s block = .error e) :
    ∃ e, readText map s text = .error e := by
  obtain ⟨block,rest,pieces,head⟩ := first_block filled
  obtain ⟨e,failed⟩ := fails block head
  exact ⟨e,by rw [readText,pieces,blockLoop,failed]⟩

-- No reference can be resolved while nothing has been assigned.
theorem readText_unset (unescaped : s.escapeNext = false) (uncommented : s.commentNext = false) (set : s.varNext = true)
    (filled : text ≠ []) : ∃ e, readText .empty s text = .error e := by
  refine readText_fails filled fun block _ => ?_
  rcases kvVarSub_key block with ⟨e,_,fails⟩ | ⟨k,_,looked⟩
  · exact ⟨e,by simp [blockStep,unescaped,uncommented,set,fails]⟩
  · exact ⟨.err "invalid variable substitution: not seen",by simp [blockStep,unescaped,uncommented,set,looked,Map.empty]⟩

theorem readText_badEscape (escaped : s.escapeNext = true) (ordinary : special c = false) (other : c ≠ newline) (tail : Str) :
    ∃ e, readText map s (c :: tail) = .error e := by
  refine readText_fails (by simp) fun block head => ⟨.err "bad escape",?_⟩
  have first : block.head? = some c := head
  simp [blockStep,escaped,escapedBlock,first,ordinary,startsWith,other]

theorem comment_step (ran : commentBlock s block = .ok flow) : flow = .brk s ∨ flow = .cont s := by
  unfold commentBlock at ran
  split at ran
  · cases ran
  · split at ran
    · cases ran; exact .inl rfl
    · split at ran
      · cases ran; exact .inr rfl
      · cases ran

-- Nothing behind an unquoted blank is part of the value.
theorem loop_comment (blocks : List Str) (unescaped : s.escapeNext = false) (commented : s.commentNext = true)
    (ran : blockLoop map s blocks = .ok t) : t = s := by
  induction blocks with
  | nil => cases ran; rfl
  | cons block rest ih =>
    have step : blockStep map s block = commentBlock s block := by simp [blockStep,unescaped,commented]
    rw [blockLoop,step] at ran
    cases stepped : commentBlock s block with
    | error e => rw [stepped] at ran; cases ran
    | ok flow =>
      rw [stepped] at ran
      rcases comment_step stepped with rfl | rfl
      · cases ran; rfl
      · exact ih ran

def quotes (s : Str) : Nat := s.count doubleQuote

theorem quotes_append (front back : Str) : quotes (front ++ back) = quotes front + quotes back := List.count_append

-- The text is read to its end outside double quotes, or what follows it is no
-- part of the value.
def Outside (map : Map) (s : LineState) (text : Str) (bound : Nat) : Prop :=
  (∃ t, Ready t ∧ t.inquote ≠ .double ∧ Reads map s text t ∧ quotes t.unquotedVal < bound) ∨
    ∀ tail t, tail ≠ [] → readText map s (text ++ tail) = .ok t → t.inquote = .no ∧ quotes t.unquotedVal < bound

theorem Outside.after (first : Reads map s text t) (rest : Outside map t more n) : Outside map s (text ++ more) n := by
  rcases rest with ⟨u,ready,outside,reads,bound⟩ | dead
  · exact .inl ⟨u,ready,outside,first.append reads,bound⟩
  · refine .inr fun tail u filled ran => ?_
    rw [List.append_assoc,first] at ran
    exact dead tail u filled ran

theorem Outside.mono (outside : Outside map s text n) (larger : n ≤ m) : Outside map s text m := by
  rcases outside with ⟨t,ready,out,reads,bound⟩ | dead
  · exact .inl ⟨t,ready,out,reads,by omega⟩
  · refine .inr fun tail t filled ran => ?_
    obtain ⟨shut,bound⟩ := dead tail t filled ran
    exact ⟨shut,by omega⟩

-- A character that adds no more quotes than it is.
theorem Outside.step (first : Reads map s (escapeIn [backslash,doubleQuote,dollar] c) t)
    (count : quotes t.unquotedVal ≤ quotes s.unquotedVal + quotes [c])
    (rest : Outside map t (esc val) (quotes t.unquotedVal + quotes val + 1)) :
    Outside map s (esc (c :: val)) (quotes s.unquotedVal + quotes (c :: val) + 1) := by
  have total : quotes (c :: val) = quotes [c] + quotes val := quotes_append [c] val
  exact (rest.after first).mono (by omega)

-- One character of the text is read and the escapes are in step again.
def Onward (map : Map) (s : LineState) (c : Char) : Prop :=
  ∃ t, Ready t ∧ t.inquote ≠ .double ∧ Reads map s (escapeIn [backslash,doubleQuote,dollar] c) t ∧
    quotes t.unquotedVal ≤ quotes s.unquotedVal + quotes [c]

theorem onward_pushed (ready : Ready s) (outside : s.inquote ≠ .double)
    (read : Reads map s (escapeIn [backslash,doubleQuote,dollar] c) (s.push [c])) : Onward map s c := by
  refine ⟨s.push [c],ready.push _,outside,read,?_⟩
  simp [LineState.push,quotes_append]

theorem onward_turned (ready : Ready s) (outside : quote ≠ .double)
    (read : Reads map s (escapeIn [backslash,doubleQuote,dollar] c) {s with inquote:=quote}) : Onward map s c :=
  ⟨{s with inquote:=quote},⟨ready.unescaped,ready.uncommented,ready.unset⟩,outside,read,Nat.le_add_right _ _⟩

theorem escaped_special (escaped : c ∈ [backslash,doubleQuote,dollar]) : special c = true := by
  simp only [List.mem_cons,List.not_mem_nil,or_false] at escaped
  rcases escaped with rfl | rfl | rfl <;> rfl

theorem onward_plain (ready : Ready s) (outside : s.inquote ≠ .double) (ends : special c = false) (other : c ≠ newline) :
    Onward map s c := by
  have shape : escapeIn [backslash,doubleQuote,dollar] c = [c] := if_neg fun escaped => by
    rw [escaped_special escaped] at ends
    cases ends
  apply onward_pushed ready outside
  rw [shape]
  refine reads_plain ready ?_ ?_
  · intro b member
    rw [List.mem_singleton.mp member]
    exact ends
  · exact fun member => other (List.mem_singleton.mp member).symm

-- In single quotes both characters of an escape are kept.
theorem onward_single (ready : Ready s) (single : s.inquote = .single) (ends : special c = true) : Onward map s c := by
  have outside : s.inquote ≠ .double := by
    rw [single]
    decide
  by_cases escaped : c ∈ [backslash,doubleQuote,dollar]
  · have shape : escapeIn [backslash,doubleQuote,dollar] c = [backslash,c] := if_pos escaped
    have other : c ≠ singleQuote := by
      rintro rfl
      exact absurd escaped (by decide)
    have slash : Reads map s [backslash] (s.push [backslash]) := reads_kept ready rfl (.inl ⟨single,by decide⟩)
    have char : Reads map (s.push [backslash]) [c] ((s.push [backslash]).push [c]) :=
      reads_kept (ready.push _) ends (.inl ⟨single,other⟩)
    refine ⟨(s.push [backslash]).push [c],(ready.push _).push _,outside,by rw [shape]; exact slash.append char,?_⟩
    simp [LineState.push,quotes_append]
    simp +decide [quotes]
  · have shape : escapeIn [backslash,doubleQuote,dollar] c = [c] := if_neg escaped
    by_cases quote : c = singleQuote
    · apply onward_turned ready (show Quoted.no ≠ .double by decide)
      rw [shape]
      exact reads_turned ready (.inr (.inr (.inr ⟨single,quote,rfl⟩)))
    · apply onward_pushed ready outside
      rw [shape]
      exact reads_kept ready ends (.inl ⟨single,quote⟩)

-- Without quotes a blank ends the value.
theorem onward_bare (ready : Ready s) (bare : s.inquote = .no) (ends : special c = true) :
    Onward map s c ∨ Reads map s (escapeIn [backslash,doubleQuote,dollar] c) {s with commentNext:=true} := by
  by_cases escaped : c ∈ [backslash,doubleQuote,dollar]
  · have shape : escapeIn [backslash,doubleQuote,dollar] c = [backslash,c] := if_pos escaped
    have unquoted : s.inquote ≠ .single ∧ s.inquote ≠ .double := by
      rw [bare]
      decide
    left
    apply onward_pushed ready unquoted.2
    rw [shape]
    exact reads_escaped ready unquoted.1 ends
  · have shape : escapeIn [backslash,doubleQuote,dollar] c = [c] := if_neg escaped
    rw [shape]
    by_cases quote : c = singleQuote
    · left
      apply onward_turned ready (show Quoted.single ≠ .double by decide)
      rw [shape]
      exact reads_turned ready (.inr (.inr (.inl ⟨bare,quote,rfl⟩)))
    · have blank : c = space ∨ c = tab := by
        simp only [List.mem_cons,List.not_mem_nil,or_false,not_or] at escaped
        rcases special_cases ends with h | h | h | h | h | h
        · exact absurd h escaped.1
        · exact absurd h escaped.2.1
        · exact absurd h quote
        · exact .inl h
        · exact .inr h
        · exact absurd h escaped.2.2
      right
      apply reads_special ends
      rw [ready.step]
      rcases blank with rfl | rfl <;> simp +decide [plainBlock,bare,LineState.push]

-- Outside double quotes the escapes stay in step. Each double quote of the
-- value comes from one of the text.
theorem outside_read (ready : Ready s) (outside : s.inquote ≠ .double) (clean : newline ∉ val) :
    Outside map s (esc val) (quotes s.unquotedVal + quotes val + 1) := by
  induction val generalizing s with
  | nil => exact .inl ⟨s,ready,outside,.refl map s,by simp [quotes]⟩
  | cons c val ih =>
    have rest : newline ∉ val := fun member => clean (List.mem_cons_of_mem _ member)
    have other : c ≠ newline := fun same => clean (same ▸ List.mem_cons_self)
    have further : Onward map s c → Outside map s (esc (c :: val)) (quotes s.unquotedVal + quotes (c :: val) + 1) := by
      rintro ⟨t,ready,outside,read,count⟩
      exact Outside.step read count (ih ready outside rest)
    cases ends : special c with
    | false => exact further (onward_plain ready outside ends other)
    | true =>
      cases quote : s.inquote with
      | double => exact absurd quote outside
      | single => exact further (onward_single ready quote ends)
      | no =>
        rcases onward_bare ready quote ends with onward | stop
        · exact further onward
        · refine Outside.step stop (by simp) (.inr fun tail t _ ran => ?_)
          have same : t = {s with commentNext:=true} := loop_comment _ ready.unescaped rfl ran
          rw [same]
          exact ⟨quote,Nat.lt_succ_of_le (Nat.le_add_right _ _)⟩

-- The same inside double quotes, from a state that may be out of step.
def Inside (map : Map) (escape : Bool) (got val : Str) : Prop :=
  (∃ more, more.length = got.length + val.length ∧ quotes more ≤ quotes got + quotes val ∧
    Reads map (inDouble escape got) (esc val) (inDouble (escape && val.all (· == backslash)) more)) ∨
  Outside map (inDouble escape got) (esc val) (quotes got + quotes val)

-- A text that cannot be read whatever follows it.
theorem Outside.failed (fails : ∀ tail, tail ≠ [] → ∃ e, readText map s (text ++ tail) = .error e) : Outside map s text n := by
  refine .inr fun tail t filled ran => ?_
  obtain ⟨e,failed⟩ := fails tail filled
  rw [failed] at ran
  cases ran

-- A backslash was left over, so an escape of the text gives its backslash and
-- leaves its character to be read.
theorem behind_escaped (escaped : c ∈ [backslash,doubleQuote,dollar]) (clean : newline ∉ val)
    (later : Inside .empty true (got ++ [backslash]) val) : Inside .empty true got (c :: val) := by
  have total : quotes (c :: val) = quotes [c] + quotes val := quotes_append [c] val
  have pushed : quotes (got ++ [backslash]) = quotes got := by simp +decide [quotes]
  have shape : esc (c :: val) = [backslash] ++ ([c] ++ esc val) := by
    rw [esc_cons,escapeIn,if_pos escaped]
    rfl
  have slash : Reads .empty (inDouble true got) [backslash] (inDouble false (got ++ [backslash])) := reads_slash got
  have ready := ready_double (got ++ [backslash])
  simp only [List.mem_cons,List.not_mem_nil,or_false] at escaped
  unfold Inside
  rw [shape]
  rcases escaped with rfl | rfl | rfl
  · have again : Reads .empty (inDouble false (got ++ [backslash])) [backslash] (inDouble true (got ++ [backslash])) :=
      reads_backslash ready (by simp [inDouble])
    rcases later with ⟨more,length,count,reads⟩ | outside
    · refine .inl ⟨more,by simp at length ⊢; omega,by omega,?_⟩
      simpa using slash.append (again.append reads)
    · exact .inr (((outside.after again).after slash).mono (by omega))
  · -- the quote ends here
    have shut : Reads .empty (inDouble false (got ++ [backslash])) [doubleQuote] {unquotedVal:=got ++ [backslash]} :=
      reads_turned ready (.inr (.inl ⟨rfl,rfl,rfl⟩))
    have outside : Outside .empty {unquotedVal:=got ++ [backslash]} (esc val) (quotes (got ++ [backslash]) + quotes val + 1) :=
      outside_read ⟨rfl,rfl,rfl⟩ (by simp) clean
    refine .inr (((outside.after shut).after slash).mono ?_)
    have one : quotes [doubleQuote] = 1 := by decide
    omega
  · have var : Reads .empty (inDouble false (got ++ [backslash])) [dollar] {inDouble false (got ++ [backslash]) with varNext:=true} := by
      apply reads_special rfl
      rw [ready.step]
      simp +decide [plainBlock,inDouble,LineState.push]
    have unset : Outside .empty {inDouble false (got ++ [backslash]) with varNext:=true} (esc val) (quotes got + quotes (dollar :: val)) :=
      .failed fun tail filled => readText_unset rfl rfl rfl (by simp [filled])
    exact .inr ((unset.after var).after slash)

-- Any other character is what the backslash escapes.
theorem behind_plain (plain : c ∉ [backslash,doubleQuote,dollar]) (clean : newline ∉ c :: val) : Inside .empty true got (c :: val) := by
  have shape : esc (c :: val) = [c] ++ esc val := by rw [esc_cons,escapeIn,if_neg plain]
  have total : quotes (c :: val) = quotes [c] + quotes val := quotes_append [c] val
  unfold Inside
  rw [shape]
  cases ends : special c with
  | true =>
    have taken : Reads .empty (inDouble true got) [c] (inDouble false (got ++ [c])) := reads_taken rfl ends
    have other : (c == backslash) = false := by
      apply beq_eq_false_iff_ne.mpr
      rintro rfl
      exact plain (by simp)
    have rest : newline ∉ val := fun member => clean (List.mem_cons_of_mem _ member)
    refine .inl ⟨got ++ [c] ++ val,by simp,by simp only [quotes_append]; omega,?_⟩
    simpa [other] using taken.append (reads_value rest _)
  | false =>
    right
    apply Outside.failed
    intro tail _
    rw [List.append_assoc]
    exact readText_badEscape rfl ends (fun same => clean (by simp [same])) _

theorem inside_behind (got : Str) (clean : newline ∉ val) : Inside .empty true got val := by
  induction val generalizing got with
  | nil => exact .inl ⟨got,by simp,by simp [quotes],.refl _ _⟩
  | cons c val ih =>
    have rest : newline ∉ val := fun member => clean (List.mem_cons_of_mem _ member)
    by_cases escaped : c ∈ [backslash,doubleQuote,dollar]
    · exact behind_escaped escaped rest (ih (got ++ [backslash]) rest)
    · exact behind_plain escaped clean

theorem inside_read (escape : Bool) (got : Str) (clean : newline ∉ val) : Inside .empty escape got val := by
  cases escape with
  | true => exact inside_behind got clean
  | false => exact .inl ⟨got ++ val,by simp,by simp [quotes_append],by simpa using reads_value clean got⟩

-- A line that begins an assignment, or none.
theorem process_fresh (ran : kvProcess line map = (.ok result,left)) : (result = none ∧ left = []) ∨
    ∃ (key : Key) (val : Str), trimStart line = key.text ++ '=' :: val ∧
      settled key.text (key.text ++ '=' :: val) (readText map {} val) = (.ok result,left) := by
  unfold kvProcess at ran
  simp only at ran
  split at ran
  · cases ran
    exact .inl ⟨rfl,rfl⟩
  · split at ran
    · cases ran
    · rename_i key val cut
      split at ran
      · cases ran
      · rename_i named
        split at ran
        · cases ran
        · rename_i allowed
          have parts := splitOnce_eq cut
          have unequal := splitOnce_before cut
          have characters : ∀ c ∈ key, invalidInKey c = false := by simpa using allowed
          have head : ∀ c, key.head? = some c → whitespace c = false := by
            intro c first
            have start : (trimStart line).head? = some c := by rw [parts,List.head?_append_of_ne_nil _ named,first]
            exact trimStart_head start
          rw [parts] at ran
          refine .inr ⟨⟨key,named,unequal,characters,head⟩,val,parts,?_⟩
          unfold readText
          cases looped : blockLoop map {} (splitInclusive special val) with
          | error e => simp [looped] at ran
          | ok s => simpa only [looped,settled] using ran

-- The quote that opened the value has been closed too early: each value so far
-- has lost a double quote, and one still open is open in single quotes.
structure Adrift (map : Map) (buffer : Str) (bound : Nat) : Prop where
  values : ∀ k val, map k = some val → quotes val < bound
  positive : 0 < bound
  pending : buffer = [] ∨ ∃ (key : Key) (text : Str) (t : LineState), buffer = key.text ++ '=' :: text ∧ Ready t ∧
    t.inquote = .single ∧ Reads map {} text t ∧ quotes t.unquotedVal < bound

theorem quotes_insert (values : ∀ k val, map k = some val → quotes val < n) (fewer : quotes val < n) (key : Str) :
    ∀ k v, map.insert key val k = some v → quotes v < n := by
  intro k v found
  by_cases same : k = key
  · subst same
    simp only [Map.insert,Function.update_self,Option.some.injEq] at found
    exact found ▸ fewer
  · rw [Map.insert,Function.update_of_ne same] at found
    exact values k v found

def Visible (s : Str) : Prop := ∃ c, s.getLast? = some c ∧ whitespace c = false

theorem retained_single (visible : Visible front) : retained .single (front ++ [newline]) = front ++ [space] := by
  obtain ⟨c,last,seen⟩ := visible
  rw [retained,trimEnd_newline,trimEnd_visible last seen]
  simp

-- A value left open in single quotes at a line break.
theorem drift_open (key : Key) (ready : Ready t) (single : t.inquote = .single) (reads : Reads map {} text t)
    (fewer : quotes t.unquotedVal < n) (visible : Visible (key.text ++ '=' :: text))
    (values : ∀ k val, map k = some val → quotes val < n)
    (ran : settled key.text (key.text ++ '=' :: (text ++ [newline])) (readText map {} (text ++ [newline])) = (.ok result,left)) :
    Adrift (assignResult map result) left n := by
  have read : readText map {} (text ++ [newline]) = .ok t := (reads [newline]).trans (readText_newline ready)
  have kept := retained_single visible
  have shape : key.text ++ '=' :: (text ++ [newline]) = key.text ++ '=' :: text ++ [newline] := by simp
  rw [read,settled,single,shape,kept] at ran
  cases ran
  have gap : Reads map t [space] (t.push [space]) := reads_kept ready rfl (.inl ⟨single,by decide⟩)
  refine ⟨values,by omega,.inr ⟨key,text ++ [space],t.push [space],by simp,ready.push _,single,reads.append gap,?_⟩⟩
  have count : quotes (t.push [space]).unquotedVal = quotes t.unquotedVal := by simp +decide [LineState.push,quotes]
  omega

-- A line behind the escaped text of an assignment.
theorem drift_line (seg : Segment) (key : Key) (outside : Outside map {} text n)
    (visible : Visible (key.text ++ '=' :: text)) (values : ∀ k val, map k = some val → quotes val < n)
    (ran : settled key.text (key.text ++ '=' :: (text ++ seg.ending)) (readText map {} (text ++ seg.ending)) = (.ok result,left)) :
    Adrift (assignResult map result) left n := by
  -- a line that closes its value leaves nothing in the buffer
  have closed : ∀ t : LineState, readText map {} (text ++ seg.ending) = .ok t → t.inquote = .no →
      quotes t.unquotedVal < n → Adrift (assignResult map result) left n := by
    intro t read shut fewer
    simp only [read,settled,shut,ne_eq,not_true,if_false] at ran
    cases ran
    exact ⟨quotes_insert values fewer key.text,by omega,.inl rfl⟩
  rcases outside with ⟨t,ready,out,reads,fewer⟩ | dead
  · cases quote : t.inquote with
    | double => exact absurd quote out
    | no =>
      cases continued : seg.continued with
      | false =>
        have shape : seg.ending = [newline] := by simp [Segment.ending,continued]
        exact closed t (by rw [shape]; exact (reads [newline]).trans (readText_newline ready)) quote fewer
      | true =>
        have slash : Reads map t [backslash] {t with escapeNext:=true} := reads_backslash ready (by simp [quote])
        have bad : readText map {t with escapeNext:=true} [newline] = .error (.err "bad escape") := by
          rw [readText_plain map (by simp [Plain]; decide) (by simp)]
          simp +decide [blockStep,escapedBlock,quote]
        have whole := ((reads.append slash) [newline]).trans bad
        have shape : text ++ seg.ending = text ++ [backslash] ++ [newline] := by simp [Segment.ending,continued]
        rw [shape,whole] at ran
        cases ran
    | single =>
      cases continued : seg.continued with
      | false =>
        rw [Segment.ending,continued] at ran
        exact drift_open key ready quote reads fewer visible values ran
      | true =>
        have slash : Reads map t [backslash] (t.push [backslash]) := reads_kept ready rfl (.inl ⟨quote,by decide⟩)
        have count : quotes (t.push [backslash]).unquotedVal = quotes t.unquotedVal := by
          simp +decide [LineState.push,quotes]
        have seen : Visible (key.text ++ '=' :: (text ++ [backslash])) := by
          refine ⟨backslash,?_,by decide⟩
          rw [← List.cons_append,← List.append_assoc,List.getLast?_concat]
        have shape : text ++ seg.ending = text ++ [backslash] ++ [newline] := by simp [Segment.ending,continued]
        rw [shape] at ran
        exact drift_open key (ready.push _) quote (reads.append slash) (by omega) seen values ran
  · cases read : readText map {} (text ++ seg.ending) with
    | error e =>
      rw [read] at ran
      cases ran
    | ok t =>
      have filled : seg.ending ≠ [] := by
        unfold Segment.ending
        split <;> simp
      obtain ⟨shut,fewer⟩ := dead seg.ending t filled read
      exact closed t read shut fewer

-- The first equals sign of an escaped text is one of the text.
theorem fresh_cut (shape : trimStart (esc val ++ more) = front ++ '=' :: text) (before : '=' ∉ front) (after : '=' ∉ more) :
    ∃ lead rest, val = lead ++ '=' :: rest ∧ text = esc rest ++ more := by
  have blank : '=' ∉ (esc val ++ more).takeWhile whitespace := by
    intro member
    exact absurd (List.mem_takeWhile_imp member) (by decide)
  have whole : esc val ++ more = ((esc val ++ more).takeWhile whitespace ++ front) ++ '=' :: text := by
    rw [List.append_assoc,← shape]
    exact List.takeWhile_append_dropWhile.symm
  have inside : '=' ∈ val := by
    have member : '=' ∈ esc val ++ more := by
      rw [whole]
      simp
    rcases List.mem_append.mp member with early | late
    · rcases esc_mem early with slash | found
      · cases slash
      · exact found
    · exact absurd late after
  obtain ⟨lead,rest,equal,absent⟩ := List.eq_append_cons_of_mem inside
  refine ⟨lead,rest,equal,?_⟩
  have other : esc val ++ more = esc lead ++ '=' :: (esc rest ++ more) := by
    rw [equal,esc_append,esc_cons,escapeIn,if_neg (by decide)]
    simp
  have ahead : '=' ∉ esc lead := by
    intro member
    rcases esc_mem member with slash | found
    · cases slash
    · exact absent found
  have clear : '=' ∉ (esc val ++ more).takeWhile whitespace ++ front := by simp [blank,before]
  have first := splitOnce_at clear text
  have second := splitOnce_at ahead (esc rest ++ more)
  rw [← whole,other,second] at first
  exact (Prod.mk.inj (Option.some.inj first)).2.symm

theorem quotes_behind (equal : val = front ++ '=' :: more) : quotes more ≤ quotes val := by
  have total := quotes_append front ('=' :: more)
  have tail := quotes_append ['='] more
  rw [← equal] at total
  simp only [List.singleton_append] at tail
  omega

theorem quotes_value (seg : Segment) : quotes seg.value = quotes seg.text := by
  unfold Segment.value
  split
  · rfl
  · simp +decide [quotes]

theorem adrift_step (seg : Segment) (adrift : Adrift map buffer n) (ran : kvProcess (buffer ++ seg.line) map = (.ok result,left)) :
    Adrift (assignResult map result) left (n + quotes seg.value) := by
  obtain ⟨values,positive,pending⟩ := adrift
  have weaker : ∀ k val, map k = some val → quotes val < n + quotes seg.value := by
    intro k val found
    have fewer := values k val found
    omega
  rw [quotes_value] at weaker ⊢
  rcases pending with rfl | ⟨key,text,t,rfl,ready,single,reads,fewer⟩
  · rcases process_fresh ran with ⟨rfl,rfl⟩ | ⟨key,val,cut,done⟩
    · exact ⟨weaker,by omega,.inl rfl⟩
    · have unequal : '=' ∉ seg.ending := by
        unfold Segment.ending
        split <;> decide
      obtain ⟨lead,rest,equal,rfl⟩ := fresh_cut cut key.noEquals unequal
      have clean : newline ∉ rest := fun member => seg.clean (by rw [equal]; simp [member])
      have count := quotes_behind equal
      have outside : Outside map {} (esc rest) (quotes ([] : Str) + quotes rest + 1) := outside_read ⟨rfl,rfl,rfl⟩ (by simp) clean
      have none : quotes [] = 0 := rfl
      obtain ⟨c,last,_,seen⟩ := seg.esc_visible []
      have visible : Visible (key.text ++ '=' :: esc rest) := by
        refine ⟨c,?_,seen⟩
        have parts : esc seg.text = esc lead ++ '=' :: esc rest := by
          rw [equal,esc_append,esc_cons,escapeIn,if_neg (by decide)]
          rfl
        rw [List.nil_append,parts,List.getLast?_append_of_ne_nil _ (by simp)] at last
        rw [List.getLast?_append_of_ne_nil _ (by simp),last]
      exact drift_line seg key (outside.mono (by omega)) visible weaker done
  · have here : Outside map t (esc seg.text) (quotes t.unquotedVal + quotes seg.text + 1) :=
      outside_read ready (by simp [single]) seg.clean
    have outside := here.after reads
    obtain ⟨c,last,_,seen⟩ := seg.esc_visible (key.text ++ '=' :: text)
    have visible : Visible (key.text ++ '=' :: (text ++ esc seg.text)) := ⟨c,by simpa using last,seen⟩
    apply drift_line seg key (outside.mono (by omega)) visible weaker
    have shape : key.text ++ '=' :: text ++ seg.line = key.text ++ '=' :: (text ++ esc seg.text ++ seg.ending) := by
      simp [Segment.line]
    rw [shape,process_key] at ran
    exact ran

theorem retained_quote (inquote : Quoted) (front : Str) : retained inquote (front ++ [doubleQuote,newline]) ≠ [] := by
  have shape : front ++ [doubleQuote,newline] = front ++ [doubleQuote] ++ [newline] := by simp
  have kept : trimEnd (front ++ [doubleQuote]) = front ++ [doubleQuote] := trimEnd_visible List.getLast?_concat (by decide)
  rw [shape,retained,trimEnd_newline,kept]
  simp +decide

-- The line that should have closed the value opens another quote, which is
-- never closed.
theorem drift_last (key : Key) (outside : Outside map {} text n)
    (ran : settled key.text (key.text ++ '=' :: (text ++ [doubleQuote,newline])) (readText map {} (text ++ [doubleQuote,newline])) =
      (.ok result,[])) : ∃ val, result = some (key.text,val) ∧ quotes val < n := by
  have shape : key.text ++ '=' :: (text ++ [doubleQuote,newline]) = key.text ++ '=' :: text ++ [doubleQuote,newline] := by simp
  have unopened : ∀ t : LineState, readText map {} (text ++ [doubleQuote,newline]) = .ok t → t.inquote = .no := by
    intro t read
    by_contra opened
    rw [read,settled,if_pos opened,shape] at ran
    exact retained_quote _ _ (Prod.mk.inj ran).2
  rcases outside with ⟨t,ready,out,reads,fewer⟩ | dead
  · exfalso
    cases quote : t.inquote with
    | double => exact out quote
    | no =>
      have turned : Reads map t [doubleQuote] {t with inquote:=.double} := reads_turned ready (.inl ⟨quote,rfl,rfl⟩)
      have read : readText map {} (text ++ [doubleQuote] ++ [newline]) = .ok {t with inquote:=.double} :=
        ((reads.append turned) [newline]).trans (readText_newline ⟨ready.unescaped,ready.uncommented,ready.unset⟩)
      exact absurd (unopened _ (by simpa using read)) (by simp)
    | single =>
      have kept : Reads map t [doubleQuote] (t.push [doubleQuote]) := reads_kept ready rfl (.inl ⟨quote,by decide⟩)
      have read : readText map {} (text ++ [doubleQuote] ++ [newline]) = .ok (t.push [doubleQuote]) :=
        ((reads.append kept) [newline]).trans (readText_newline (ready.push _))
      exact absurd (unopened _ (by simpa using read)) (by simp [LineState.push,quote])
  · cases read : readText map {} (text ++ [doubleQuote,newline]) with
    | error e =>
      rw [read] at ran
      cases ran
    | ok t =>
      obtain ⟨shut,fewer⟩ := dead _ t (by simp) read
      simp only [read,settled,shut,ne_eq,not_true,if_false] at ran
      cases ran
      exact ⟨_,rfl,fewer⟩

theorem adrift_last (adrift : Adrift map buffer n) (clean : newline ∉ val)
    (ran : kvProcess (buffer ++ (esc val ++ [doubleQuote,newline])) map = (.ok result,[])) :
    ∀ k v, assignResult map result k = some v → quotes v < n + quotes val := by
  obtain ⟨values,positive,pending⟩ := adrift
  have weaker : ∀ k v, map k = some v → quotes v < n + quotes val := by
    intro k v found
    have fewer := values k v found
    omega
  rcases pending with rfl | ⟨key,text,t,rfl,ready,single,reads,fewer⟩
  · rcases process_fresh ran with ⟨rfl,_⟩ | ⟨key,text,cut,done⟩
    · exact weaker
    · obtain ⟨lead,rest,equal,rfl⟩ := fresh_cut cut key.noEquals (by decide)
      have outside : Outside map {} (esc rest) (quotes ([] : Str) + quotes rest + 1) :=
        outside_read ⟨rfl,rfl,rfl⟩ (by simp) fun member => clean (by rw [equal]; simp [member])
      have count := quotes_behind equal
      have none : quotes [] = 0 := rfl
      have wider : Outside map {} (esc rest) (n + quotes val) := outside.mono (by omega)
      obtain ⟨v,rfl,bound⟩ := drift_last key wider done
      exact quotes_insert weaker bound key.text
  · have here : Outside map t (esc val) (quotes t.unquotedVal + quotes val + 1) := outside_read ready (by simp [single]) clean
    have shape : key.text ++ '=' :: text ++ (esc val ++ [doubleQuote,newline]) =
        key.text ++ '=' :: (text ++ esc val ++ [doubleQuote,newline]) := by simp
    have wider : Outside map {} (text ++ esc val) (n + quotes val) := (here.after reads).mono (by omega)
    rw [shape,process_key] at ran
    obtain ⟨v,rfl,bound⟩ := drift_last key wider ran
    exact quotes_insert weaker bound key.text

theorem append_last (ran : appendLines linenum buffer map [line] = (.ok (),final)) :
    ∃ result, kvProcess (buffer ++ line) map = (.ok result,[]) ∧ final = assignResult map result := by
  obtain ⟨_,result,left,processed,later⟩ := append_inverted ran
  obtain ⟨rfl,rfl⟩ := append_done later
  exact ⟨result,processed,rfl⟩

theorem adrift_run (last : Str) (clean : newline ∉ last) (segments : List Segment) (linenum : Nat) (adrift : Adrift map buffer n)
    (ran : appendLines linenum buffer map (segments.map Segment.line ++ [esc last ++ [doubleQuote,newline]]) = (.ok (),final)) :
    ∀ k v, final k = some v → quotes v < n + quotes (segments.flatMap Segment.value ++ last) := by
  induction segments generalizing linenum buffer map n with
  | nil =>
    obtain ⟨result,processed,rfl⟩ := append_last ran
    exact adrift_last adrift clean processed
  | cons seg segments ih =>
    obtain ⟨_,result,left,processed,later⟩ := append_inverted ran
    have next := ih (linenum+1) (adrift_step seg adrift processed) later
    have total : quotes ((seg :: segments).flatMap Segment.value ++ last) =
        quotes seg.value + quotes (segments.flatMap Segment.value ++ last) := by simp [quotes_append]
    intro k v found
    have fewer := next k v found
    omega

theorem Outside.escaped (outside : Outside map s text n) (clean : newline ∉ val) : Outside map s (text ++ esc val) (n + quotes val) := by
  rcases outside with ⟨t,ready,out,reads,bound⟩ | dead
  · exact ((outside_read ready out clean).after reads).mono (by omega)
  · refine .inr fun tail t filled ran => ?_
    rw [List.append_assoc] at ran
    obtain ⟨shut,bound⟩ := dead _ t (by simp [filled]) ran
    exact ⟨shut,by omega⟩

-- The line leaves the quote open with at most its text added to the value.
def StaysOpen (seg : Segment) (key : Key) (front got : Str) : Prop :=
  ∃ behind more, Reads .empty (inDouble false []) (front ++ seg.kept) (inDouble behind more) ∧
    more.length + (if seg.swallowed then 1 else 0) ≤ got.length + seg.value.length ∧
    quotes more ≤ quotes got + quotes seg.text ∧
    kvProcess (key.text ++ ['=',doubleQuote] ++ front ++ seg.line) .empty =
      (.ok none,key.text ++ ['=',doubleQuote] ++ (front ++ seg.kept))

-- The last escape is half of one in what is kept, a whole one in the line.
theorem inside_swallowed (seg : Segment) (key : Key) (swallowed : seg.swallowed = true)
    (read : Reads .empty (inDouble false []) front (inDouble escape got)) :
    StaysOpen seg key front got ∨ Outside .empty (inDouble escape got) (esc seg.text) (quotes got + quotes seg.text) := by
  obtain ⟨lead,plain,equal,shape⟩ := seg.swallowed_cut swallowed
  have clean : newline ∉ lead := fun member => seg.clean (by rw [equal]; simp [member])
  have one : quotes [backslash] = 0 := by decide
  have count : quotes seg.text = quotes lead := by rw [equal,quotes_append,one,Nat.add_zero]
  have length : seg.value.length = lead.length + 2 := by simp [Segment.value,plain,equal]
  have kept : seg.kept = esc lead ++ [backslash] := by
    simp only [Segment.kept,plain,swallowed,shape,Bool.false_eq_true,if_false,if_true,List.dropLast_concat]
  unfold StaysOpen
  rw [swallowed]
  rcases inside_read escape got clean with ⟨more,size,bound,body⟩ | outside
  · generalize (escape && lead.all (· == backslash)) = behind at body
    cases behind with
    | false =>
      have half : Reads .empty (inDouble false more) [backslash] (inDouble true more) :=
        reads_backslash (ready_double _) (by simp [inDouble])
      have whole := (body.append half).append (reads_slash more)
      rw [← shape] at whole
      refine .inl ⟨true,more,?_,by simp only [if_true]; omega,by omega,seg.process_inside key read whole⟩
      rw [kept]
      exact read.append (body.append half)
    | true =>
      have half : Reads .empty (inDouble true more) [backslash] (inDouble false (more ++ [backslash])) := reads_slash more
      have again : Reads .empty (inDouble false (more ++ [backslash])) [backslash] (inDouble true (more ++ [backslash])) :=
        reads_backslash (ready_double _) (by simp [inDouble])
      have whole := (body.append half).append again
      rw [← shape] at whole
      refine .inl ⟨false,more ++ [backslash],?_,by simp only [if_true,List.length_append,List.length_singleton]; omega,
        by rw [quotes_append]; omega,seg.process_inside key read whole⟩
      rw [kept]
      exact read.append (body.append half)
  · have slash : newline ∉ [backslash] := by decide
    have whole := outside.escaped slash
    rw [← esc_append,← equal,one] at whole
    exact .inr (whole.mono (by omega))

theorem inside_unswallowed (seg : Segment) (key : Key) (unswallowed : seg.swallowed = false)
    (read : Reads .empty (inDouble false []) front (inDouble escape got)) :
    StaysOpen seg key front got ∨ Outside .empty (inDouble escape got) (esc seg.text) (quotes got + quotes seg.text) := by
  unfold StaysOpen
  rw [unswallowed]
  rcases inside_read escape got seg.clean with ⟨more,size,bound,body⟩ | outside
  · have process := seg.process_inside key read body
    cases continued : seg.continued with
    | true =>
      have kept : seg.kept = esc seg.text := by simp [Segment.kept,continued]
      have both := read.append body
      rw [← kept] at both
      exact .inl ⟨_,more,both,by simp [Segment.value,continued]; omega,bound,process⟩
    | false =>
      have kept : seg.kept = esc seg.text ++ [space] := by simp [Segment.kept,continued,unswallowed]
      have ends : endsWith backslash seg.text = false := by simpa [Segment.swallowed,continued] using unswallowed
      have behind : (escape && seg.text.all (· == backslash)) = false := by
        obtain ⟨c,_,final,_⟩ := seg.esc_visible []
        have other : c ≠ backslash := by simpa [endsWith,final] using ends
        have found : seg.text.all (· == backslash) = false :=
          List.all_eq_false.mpr ⟨c,List.mem_of_getLast? final,by simpa using other⟩
        rw [found,Bool.and_false]
      rw [behind] at body
      have gap : Reads .empty (inDouble false more) [space] (inDouble false (more ++ [space])) :=
        reads_kept (ready_double _) rfl (.inr ⟨rfl,by decide,by decide,by decide⟩)
      have one : quotes [space] = 0 := by decide
      refine .inl ⟨false,more ++ [space],?_,by simp [Segment.value,continued]; omega,
        by rw [quotes_append]; omega,process⟩
      rw [kept]
      exact read.append (body.append gap)
  · exact .inr outside

-- A line inside the quotes, in step or not: the quote stays open or is closed.
theorem inside_step (seg : Segment) (key : Key) (read : Reads .empty (inDouble false []) front (inDouble escape got)) :
    StaysOpen seg key front got ∨ Outside .empty (inDouble escape got) (esc seg.text) (quotes got + quotes seg.text) := by
  cases swallowed : seg.swallowed with
  | true => exact inside_swallowed seg key swallowed read
  | false => exact inside_unswallowed seg key swallowed read

theorem process_outside (key : Key) (read : Reads map (inDouble false []) front s) (outside : Outside map s text n)
    (tail : Str) (ran : kvProcess (key.text ++ ['=',doubleQuote] ++ front ++ (text ++ tail)) map = (.ok result,left)) :
    Outside map {} (doubleQuote :: (front ++ text)) n ∧
      settled key.text (key.text ++ '=' :: (doubleQuote :: (front ++ text) ++ tail))
        (readText map {} (doubleQuote :: (front ++ text) ++ tail)) = (.ok result,left) := by
  have opened : Reads map {} [doubleQuote] (inDouble false []) := reads_turned ready_start (.inl ⟨rfl,rfl,rfl⟩)
  have whole := outside.after (opened.append read)
  have shape : key.text ++ ['=',doubleQuote] ++ front ++ (text ++ tail) =
      key.text ++ '=' :: (doubleQuote :: (front ++ text) ++ tail) := by simp
  rw [shape,process_key] at ran
  exact ⟨by simpa using whole,ran⟩

theorem inside_last (key : Key) (read : Reads .empty (inDouble false []) front (inDouble escape got)) (clean : newline ∉ val)
    (short : got.length < n) (fewer : quotes got ≤ m)
    (ran : kvProcess (key.text ++ ['=',doubleQuote] ++ front ++ (esc val ++ [doubleQuote,newline])) .empty = (.ok result,[])) :
    ∃ more, result = some (key.text,more) ∧ (more.length < n + val.length ∨ quotes more < m + quotes val) := by
  rcases inside_read escape got clean with ⟨more,size,bound,body⟩ | outside
  · generalize (escape && val.all (· == backslash)) = behind at body
    have processed := process_open key read (esc val ++ [doubleQuote,newline])
    cases behind with
    | false =>
      have closed : readText .empty (inDouble escape got) (esc val ++ [doubleQuote,newline]) = .ok {unquotedVal:=more} :=
        (body _).trans (readText_closing more)
      rw [closed,ran] at processed
      simp only [settled,ne_eq,not_true,if_false] at processed
      cases processed
      exact ⟨more,rfl,.inl (by omega)⟩
    | true =>
      -- the closing quote is taken as an escaped one
      have taken : Reads .empty (inDouble true more) [doubleQuote] (inDouble false (more ++ [doubleQuote])) := reads_taken rfl rfl
      have left : readText .empty (inDouble escape got) (esc val ++ [doubleQuote,newline]) =
          .ok (inDouble false (more ++ [doubleQuote])) := by
        have whole := ((body.append taken) [newline]).trans (readText_break false _)
        simpa using whole
      have shape : key.text ++ ['=',doubleQuote] ++ front ++ (esc val ++ [doubleQuote,newline]) =
          key.text ++ ['=',doubleQuote] ++ front ++ esc val ++ [doubleQuote,newline] := by simp
      rw [ran,left,shape] at processed
      exact absurd (Prod.mk.inj processed).2.symm (retained_quote _ _)
  · obtain ⟨whole,done⟩ := process_outside key read outside _ ran
    obtain ⟨more,rfl,bound⟩ := drift_last key whole done
    exact ⟨more,rfl,.inr (by omega)⟩

theorem inside_run (key : Key) (last : Str) (clean : newline ∉ last) (segments : List Segment) (linenum : Nat) (expected : Str)
    (read : Reads .empty (inDouble false []) front (inDouble escape got)) (size : got.length ≤ expected.length)
    (lost : got.length < expected.length ∨ ∃ seg ∈ segments, seg.swallowed = true) (count : quotes got ≤ quotes expected)
    (ran : appendLines linenum (key.text ++ ['=',doubleQuote] ++ front) .empty
      (segments.map Segment.line ++ [esc last ++ [doubleQuote,newline]]) = (.ok (),final)) :
    final key.text ≠ some (expected ++ segments.flatMap Segment.value ++ last) := by
  induction segments generalizing linenum front escape got expected with
  | nil =>
    have short : got.length < expected.length := by simpa using lost
    obtain ⟨result,processed,rfl⟩ := append_last ran
    obtain ⟨more,rfl,less⟩ := inside_last key read clean short count processed
    intro found
    have same : more = expected ++ last := by simpa [assignResult,Map.insert] using found
    rw [same,quotes_append,List.length_append] at less
    omega
  | cons seg segments ih =>
    obtain ⟨_,result,left,processed,later⟩ := append_inverted ran
    rcases inside_step seg key read with ⟨behind,more,reads,length,bound,stays⟩ | outside
    · rw [stays] at processed
      cases processed
      have next := ih (linenum+1) (expected ++ seg.value) reads (by simp only [List.length_append]; omega) ?_
        (by rw [quotes_append,quotes_value]; omega) later
      · simpa using next
      · rcases lost with short | ⟨bad,member,swallowed⟩
        · exact .inl (by simp only [List.length_append]; omega)
        · rcases List.mem_cons.mp member with rfl | further
          · exact .inl (by simp only [swallowed,if_true] at length; simp only [List.length_append]; omega)
          · exact .inr ⟨bad,further,swallowed⟩
    · obtain ⟨whole,done⟩ := process_outside key read outside _ processed
      obtain ⟨c,final,_,seen⟩ := seg.esc_visible (key.text ++ '=' :: doubleQuote :: front)
      have visible : Visible (key.text ++ '=' :: (doubleQuote :: (front ++ esc seg.text))) := ⟨c,by simpa using final,seen⟩
      have adrift := drift_line seg key whole visible (by simp [Map.empty]) done
      have fewer := adrift_run last clean segments (linenum+1) adrift later
      intro found
      have less := fewer _ _ found
      simp only [List.flatMap_cons,quotes_append,quotes_value] at less
      omega

end

def Ended (line : Str) : Prop := ∃ front, line = front ++ [newline] ∧ newline ∉ front

theorem linesOf_ended (lines : List Str) (ended : ∀ line ∈ lines, Ended line) : linesOf lines.flatten = lines := by
  induction lines with
  | nil => rfl
  | cons line lines ih =>
    obtain ⟨front,rfl,clean⟩ := ended line List.mem_cons_self
    have plain : ∀ b ∈ front, (b == newline) = false := by
      intro b member
      apply beq_eq_false_iff_ne.mpr
      rintro rfl
      exact clean member
    have rest := ih fun line member => ended line (List.mem_cons_of_mem _ member)
    unfold linesOf at rest ⊢
    rw [List.flatten_cons,List.append_assoc,List.singleton_append,splitInclusive_piece plain (by simp),rest]

theorem Segment.ended (seg : Segment) : Ended seg.line := by
  have clean := esc_clean seg.clean
  unfold Segment.line Segment.ending
  cases seg.continued with
  | false => exact ⟨esc seg.text,by simp,clean⟩
  | true => exact ⟨esc seg.text ++ [backslash],by simp,by simp +decide [clean]⟩

theorem Multiline.linesOf_text (v : Multiline) :
    ∃ line rest, v.lines = line :: rest ∧ linesOf v.text = (v.start ++ line) :: rest := by
  have ended : ∀ line ∈ v.lines, Ended line := by
    intro line member
    rcases List.mem_append.mp member with early | final
    · obtain ⟨seg,_,rfl⟩ := List.mem_map.mp early
      exact seg.ended
    · have clean := esc_clean v.last_clean
      exact ⟨esc v.last ++ [doubleQuote],by simp [List.mem_singleton.mp final],by simp +decide [clean]⟩
  have begun : newline ∉ v.start := by
    have clean := v.key_clean
    simp +decide [Multiline.start,clean]
  cases shape : v.lines with
  | nil => simp [Multiline.lines] at shape
  | cons line rest =>
    rw [shape] at ended
    refine ⟨line,rest,rfl,?_⟩
    have whole : v.text = ((v.start ++ line) :: rest).flatten := by simp [Multiline.text,shape]
    rw [whole]
    refine linesOf_ended _ fun other member => ?_
    rcases List.mem_cons.mp member with rfl | later
    · obtain ⟨front,rfl,clean⟩ := ended line List.mem_cons_self
      exact ⟨v.start ++ front,by simp,by simp [begun,clean]⟩
    · exact ended other (List.mem_cons_of_mem _ later)

theorem append_short (lines : List Str) (linenum : Nat) (buffer : Str) (map : Map)
    (ran : appendLines linenum buffer map lines = (.ok (),final)) : ∀ line ∈ lines, utf8Len line ≤ CONF_LINE_MAX := by
  induction lines generalizing linenum buffer map with
  | nil => exact fun line member => nomatch member
  | cons line rest ih =>
    obtain ⟨small,result,left,_,later⟩ := append_inverted ran
    intro other member
    rcases List.mem_cons.mp member with rfl | further
    · exact small
    · exact ih (linenum+1) left _ later other further

-- The assignment of a value over several lines is read back exactly when no
-- line ends in an escaped backslash that is taken for a continuation.
theorem multiline_read (v : Multiline) : kvConfProcess v.text = .ok (Map.empty.insert v.key.text v.value) ↔
    (∀ line ∈ linesOf v.text, utf8Len line ≤ CONF_LINE_MAX) ∧ ∀ seg ∈ v.segments, seg.swallowed = false := by
  obtain ⟨line,rest,lines,cut⟩ := v.linesOf_text
  have run : ∀ final, kvConfProcess v.text = .ok final ↔ appendLines 1 [] .empty (linesOf v.text) = (.ok (),final) := by
    intro final
    unfold kvConfProcess kvConfProcessAppend
    rcases appendLines 1 [] .empty (linesOf v.text) with ⟨e | _,map⟩ <;> simp
  have opened : Reads .empty (inDouble false []) [] (inDouble false []) := .refl _ _
  rw [run]
  constructor
  · intro ran
    have short := append_short _ _ _ _ ran
    refine ⟨short,?_⟩
    rw [cut,append_start (short _ (by rw [cut]; exact List.mem_cons_self)),← lines] at ran
    by_contra bad
    have some : ∃ seg ∈ v.segments, seg.swallowed = true := by simpa using bad
    have lost := inside_run v.key v.last v.last_clean v.segments 1 [] opened (by simp) (.inr some) (by simp)
      (by simpa [Multiline.start,Multiline.lines] using ran)
    exact lost (by simp [Map.insert,Multiline.value])
  · rintro ⟨short,good⟩
    rw [cut,append_start (short _ (by rw [cut]; exact List.mem_cons_self)),← lines]
    have small : ∀ line ∈ v.lines, utf8Len line ≤ CONF_LINE_MAX := by
      rw [cut] at short
      rw [lines]
      intro other member
      rcases List.mem_cons.mp member with rfl | later
      · exact le_trans (utf8Len_suffix v.start other) (short _ List.mem_cons_self)
      · exact short other (List.mem_cons_of_mem _ later)
    obtain ⟨left,reads,ran⟩ := append_good v.key v.segments [esc v.last ++ [doubleQuote,newline]]
      (fun seg member => small _ (by simp [Multiline.lines]; exact .inl ⟨seg,member,rfl⟩)) good 1 opened
    have closing := append_closing v.key v.last v.last_clean (small _ (by simp [Multiline.lines])) (1+v.segments.length) reads
    simp only [List.append_nil] at ran
    rw [Multiline.start,Multiline.lines,ran,closing]
    simp [Multiline.value]

def singleKey (c : Char) (allowed : invalidInKey c = false) (other : c ≠ '=') (visible : whitespace c = false) : Key where
  text := [c]
  named := by simp
  noEquals := by simpa using other.symm
  characters := by simpa using allowed
  head := by simpa using visible

-- The first of two lines ends in a backslash.
def backslashValue : Multiline where
  key := singleKey 'k' (by decide) (by decide) (by decide)
  segments := [⟨['a',backslash],false,by simp,by decide,fun c last => by cases last; rfl⟩]
  last := [singleQuote,'b']
  key_clean := by
    change newline ∉ ['k']
    decide
  several := by simp
  last_clean := by decide

-- Both lines are short, and the escaped backslash is gone with the space.
theorem multiline_backslash_lost :
    backslashValue.text = ['k','=',doubleQuote,'a',backslash,backslash,newline,singleQuote,'b',doubleQuote,newline] ∧
    backslashValue.value = ['a',backslash,space,singleQuote,'b'] ∧
    (kvConfProcess backslashValue.text).toOption.bind (· ['k']) = some ['a',singleQuote,'b'] ∧
    kvConfProcess backslashValue.text ≠ .ok (Map.empty.insert ['k'] backslashValue.value) := by
  have got : (kvConfProcess backslashValue.text).toOption.bind (· ['k']) = some ['a',singleQuote,'b'] := by decide
  refine ⟨rfl,rfl,got,?_⟩
  intro read
  rw [read] at got
  revert got
  decide

end Rapido.KvConf
