import Rapido.ConfDefaults

-- Two readings of one line, with the same variables set but to other values.
namespace Rapido.KvConf
open Text
variable {m m' : Map} {s t u : LineState} {block : Str} {blocks : List Str} {line : Str}

def SameKeys (m m' : Map) : Prop := ∀ k, (m k).isSome = (m' k).isSome

-- The same failure, or the same key or none, with the same buffer left.
def Opaque (line : Str) (m m' : Map) : Prop :=
  match kvProcess line m,kvProcess line m' with
  | (.error e,buffer),(.error e',buffer') => e = e' ∧ buffer = buffer'
  | (.ok result,buffer),(.ok result',buffer') => result.map Prod.fst = result'.map Prod.fst ∧ buffer = buffer'
  | _,_ => False

-- The reference right at whose closing brace the blocks end, with the quote it
-- stands in.
def lastRef (s : LineState) : List Str → Option (Quoted × Str)
  | [] => none
  | [block] =>
    if ¬s.escapeNext ∧ ¬s.commentNext ∧ s.varNext ∧ varTail block = [] then (varKey block).map fun k => (s.inquote,k) else none
  | block :: rest => match blockStep blank s block with
    | .ok (.cont s) => lastRef s rest
    | _ => none

def finalRef (line : Str) : Option (Quoted × Str) := (valueOf line).bind fun (_,val) => lastRef {} (splitInclusive special val)

-- A text that opens or closes a quote where the parser stands.
def turnsQuote (quote : Quoted) (text : Str) : Bool :=
  match quote with
  | .no => endsWith doubleQuote text || endsWith singleQuote text
  | .double => endsWith doubleQuote text
  | .single => endsWith singleQuote text

def turned (quote : Quoted) (text : Str) : Quoted := (plainBlock {inquote:=quote} text).inquote

theorem SameKeys.unset (keys : SameKeys m m') (unset : m k = none) : m' k = none := by
  have both := keys k
  rw [unset] at both
  exact Option.not_isSome_iff_eq_none.mp (by simp [← both])

-- Whether a block fails does not depend on the value so far.
theorem escapedBlock_failed (ran : escapedBlock s block = .error e) (val : Str) :
    escapedBlock {s with unquotedVal:=val} block = .error e := by
  unfold escapedBlock at ran ⊢
  simp only at ran ⊢
  split at ran
  · rename_i found
    rw [if_pos found]
    split at ran
    · rename_i wide
      rwa [if_pos wide]
    · cases ran
  · rename_i other
    rw [if_neg other]
    split at ran
    · cases ran
    · rename_i ended
      rwa [if_neg ended]

theorem commentBlock_failed (ran : commentBlock s block = .error e) (val : Str) :
    commentBlock {s with unquotedVal:=val} block = .error e := by
  unfold commentBlock at ran ⊢
  simp only at ran ⊢
  split at ran
  · rename_i inside
    rwa [if_pos inside]
  · rename_i outside
    rw [if_neg outside]
    split at ran
    · cases ran
    · rename_i other
      rw [if_neg other]
      split at ran
      · cases ran
      · rename_i filled
        rwa [if_neg filled]

theorem step_failed (same : s.flags = t.flags) (keys : SameKeys m m') (ran : blockStep m s block = .error e) :
    blockStep m' t block = .error e := by
  obtain ⟨val,rfl⟩ := same_flags same
  unfold blockStep at ran ⊢
  by_cases escaped : s.escapeNext = true
  · rw [if_pos escaped] at ran ⊢
    exact escapedBlock_failed ran val
  · rw [if_neg escaped] at ran ⊢
    by_cases commented : s.commentNext = true
    · rw [if_pos commented] at ran ⊢
      exact commentBlock_failed ran val
    · rw [if_neg commented] at ran ⊢
      by_cases substituted : s.varNext = true
      · rw [if_pos substituted] at ran ⊢
        rcases kvVarSub_key block with ⟨e',_,fails⟩ | ⟨k,_,looked⟩
        · rw [fails m] at ran
          rw [fails m']
          exact ran
        · rw [looked m] at ran
          rw [looked m']
          cases found : m k with
          | none =>
            rw [found] at ran
            rw [keys.unset found]
            exact ran
          | some value =>
            rw [found] at ran
            cases ran
      · rw [if_neg substituted] at ran
        cases ran

theorem step_set (keys : SameKeys m m') (ran : blockStep m s block = .ok flow) : ∀ k ∈ stepRefs s block, (m' k).isSome = true := by
  intro k member
  rw [← keys k]
  by_contra unset
  obtain ⟨e,failed⟩ := step_missing member (Option.not_isSome_iff_eq_none.mp unset)
  rw [ran] at failed
  cases failed

theorem lastRef_single (final : lastRef u [block] = some (quote,k)) : quote = u.inquote ∧
    (¬u.escapeNext ∧ ¬u.commentNext ∧ u.varNext) ∧ varTail block = [] ∧ varKey block = some k := by
  rw [lastRef] at final
  split at final
  · rename_i active
    obtain ⟨unescaped,uncommented,substituted,empty⟩ := active
    cases named : varKey block with
    | none => rw [named] at final; cases final
    | some name =>
      rw [named] at final
      cases final
      exact ⟨rfl,⟨unescaped,uncommented,substituted⟩,empty,rfl⟩
  · cases final

-- A last block that is no reference up to its end.
theorem step_unfinished (unfinished : lastRef u [block] = none) : ∀ k ∈ stepRefs u block, varTail block ≠ [] := by
  intro k member empty
  unfold stepRefs at member
  split at member
  · rename_i active
    obtain ⟨unescaped,uncommented,substituted⟩ := active
    rw [lastRef,if_pos ⟨unescaped,uncommented,substituted,empty⟩,Option.mem_toList.mp member] at unfinished
    cases unfinished
  · cases member

-- The two readings go together up to a reference that ends the line.
def Together (m : Map) (u : LineState) (blocks : List Str) (first second : Except KvError LineState) : Prop :=
  ((∃ e, first = .error e ∧ second = .error e) ∨ ∃ f f', first = .ok f ∧ second = .ok f' ∧ f.flags = f'.flags) ∧
    (lastRef u blocks = none ∨ ∃ k ∈ blockRefs u blocks, m k = none)

-- They may part at such a reference, by what its values end in.
def Parting (m m' : Map) (u : LineState) (blocks : List Str) (first second : Except KvError LineState) : Prop :=
  ∃ quote k v v' f f', lastRef u blocks = some (quote,k) ∧ (∀ r ∈ blockRefs u blocks, (m r).isSome = true) ∧
    m k = some v ∧ m' k = some v' ∧ first = .ok f ∧ second = .ok f' ∧ f.inquote = turned quote v ∧ f'.inquote = turned quote v'

theorem lastRef_cons (plain : blockStep blank u block = .ok (.cont w)) (more : rest ≠ []) :
    lastRef u (block :: rest) = lastRef w rest := by
  rw [lastRef.eq_3 _ _ _ more,plain]

theorem blockRefs_cons (plain : blockStep blank u block = .ok (.cont w)) (rest : List Str) :
    blockRefs u (block :: rest) = stepRefs u block ++ blockRefs w rest := by
  rw [blockRefs,plain]

theorem Together.cons (plain : blockStep blank u block = .ok (.cont w)) (more : rest ≠ [])
    (later : Together m w rest first second) : Together m u (block :: rest) first second := by
  obtain ⟨outcome,reason⟩ := later
  refine ⟨outcome,?_⟩
  rw [lastRef_cons plain more,blockRefs_cons plain]
  rcases reason with none | ⟨k,member,unset⟩
  · exact .inl none
  · exact .inr ⟨k,List.mem_append_right _ member,unset⟩

theorem Parting.cons (plain : blockStep blank u block = .ok (.cont w)) (more : rest ≠ [])
    (set : ∀ k ∈ stepRefs u block, (m k).isSome = true) (later : Parting m m' w rest first second) :
    Parting m m' u (block :: rest) first second := by
  obtain ⟨quote,k,v,v',f,f',final,all,ends⟩ := later
  refine ⟨quote,k,v,v',f,f',(lastRef_cons plain more).trans final,?_,ends⟩
  rw [blockRefs_cons plain]
  intro r member
  rcases List.mem_append.mp member with here | later
  · exact set r here
  · exact all r later

theorem loop_single_block (m : Map) (s : LineState) (block : Str) : blockLoop m s [block] = match blockStep m s block with
    | .error e => .error e
    | .ok flow => .ok (match flow with | .brk t => t | .cont t => t) := by
  rw [blockLoop]
  rcases blockStep m s block with e | (t | t) <;> rfl

-- A reference with nothing behind it is replaced by its value, which is then
-- taken for text of the line.
theorem step_final (same : s.flags = u.flags) (active : ¬u.escapeNext ∧ ¬u.commentNext ∧ u.varNext) (empty : varTail block = [])
    (named : varKey block = some k) (m : Map) : blockStep m s block = match m k with
      | some v => .ok (.cont (plainBlock {s with varNext:=false} v))
      | none => .error (.err "invalid variable substitution: not seen") := by
  obtain ⟨val,rfl⟩ := same_flags same
  obtain ⟨unescaped,uncommented,substituted⟩ := active
  rcases kvVarSub_key block with ⟨e,none,_⟩ | ⟨name,key,looked⟩
  · rw [named] at none
    cases none
  · rw [named] at key
    cases key
    simp only at unescaped uncommented substituted
    simp only [blockStep,unescaped,uncommented,substituted,looked m,empty,List.append_nil]
    cases m k <;> rfl

theorem turned_flags (same : s.flags = u.flags) (v : Str) : (plainBlock {s with varNext:=false} v).inquote = turned u.inquote v := by
  obtain ⟨val,rfl⟩ := same_flags same
  obtain ⟨quote,escape,comment,var,old⟩ := s
  unfold turned
  cases quote <;> simp only [plainBlock,LineState.push] <;> repeat' split
  all_goals rfl

theorem last_block (left : s.flags = u.flags) (right : t.flags = u.flags) (keys : SameKeys m m') (block : Str) :
    Together m u [block] (blockLoop m s [block]) (blockLoop m' t [block]) ∨
      Parting m m' u [block] (blockLoop m s [block]) (blockLoop m' t [block]) := by
  have both : s.flags = t.flags := left.trans right.symm
  rw [loop_single_block,loop_single_block]
  cases final : lastRef u [block] with
  | none =>
    refine .inl ⟨?_,.inl final⟩
    rcases ran : blockStep m s block with e | flow
    · rw [step_failed both keys ran]
      exact .inl ⟨e,rfl,rfl⟩
    · have tail : ∀ k ∈ stepRefs s block, varTail block ≠ [] := by
        rw [stepRefs_flags left]
        exact step_unfinished final
      obtain ⟨flow',other,alike⟩ := step_alike both tail (step_set keys ran) ran
      rw [other]
      refine .inr ⟨_,_,rfl,rfl,?_⟩
      cases flow <;> cases flow' <;> simp_all [Flow.flags]
  | some found =>
    obtain ⟨quote,k⟩ := found
    obtain ⟨rfl,active,empty,named⟩ := lastRef_single final
    have step := step_final left active empty named m
    have step' := step_final right active empty named m'
    have refs : blockRefs u [block] = [k] := by
      rw [blockRefs,stepRefs,if_pos active,named]
      rcases blockStep blank u block with e | (w | w) <;> rfl
    cases found : m k with
    | none =>
      rw [step,step',found,keys.unset found]
      exact .inl ⟨.inl ⟨_,rfl,rfl⟩,.inr ⟨k,by simp [refs],found⟩⟩
    | some v =>
      obtain ⟨v',other⟩ : ∃ v', m' k = some v' := by
        apply Option.isSome_iff_exists.mp
        rw [← keys k,found]
        rfl
      rw [step,step',found,other]
      refine .inr ⟨u.inquote,k,v,v',_,_,final,?_,found,other,rfl,rfl,turned_flags left v,turned_flags right v'⟩
      intro r member
      rw [refs] at member
      rw [List.mem_singleton.mp member,found]
      rfl

-- A block that fails with every variable of it set has nothing to do with
-- variables, and ends the reading for any others.
theorem failed_reason (same : s.flags = u.flags) (ends : EndsIn nonBrace block) (ran : blockStep m s block = .error e) :
    lastRef u (block :: next :: rest) = none ∨ ∃ k ∈ blockRefs u (block :: next :: rest), m k = none := by
  by_cases set : ∀ k ∈ stepRefs u block, (m k).isSome = true
  · refine .inl ?_
    rcases plain : blockStep blank u block with e' | flow
    · simp only [lastRef,plain]
    · obtain ⟨flow',other,_⟩ := step_alike same.symm (stepRefs_tail ends) set plain
      rw [ran] at other
      cases other
  · push Not at set
    obtain ⟨k,member,unset⟩ := set
    exact .inr ⟨k,List.mem_append_left _ member,Option.not_isSome_iff_eq_none.mp unset⟩

theorem loop_pair (blocks : List Str) (terminated : Terminated nonBrace blocks) (left : s.flags = u.flags)
    (right : t.flags = u.flags) (keys : SameKeys m m') :
    Together m u blocks (blockLoop m s blocks) (blockLoop m' t blocks) ∨
      Parting m m' u blocks (blockLoop m s blocks) (blockLoop m' t blocks) := by
  induction blocks generalizing s t u with
  | nil => exact .inl ⟨.inr ⟨s,t,rfl,rfl,left.trans right.symm⟩,.inl rfl⟩
  | cons block rest ih =>
    cases rest with
    | nil => exact last_block left right keys block
    | cons next rest =>
      have both : s.flags = t.flags := left.trans right.symm
      have ends : EndsIn nonBrace block := terminated.1 (by simp)
      rw [blockLoop,blockLoop]
      rcases ran : blockStep m s block with e | flow
      · rw [step_failed both keys ran]
        exact .inl ⟨.inl ⟨e,rfl,rfl⟩,failed_reason left ends ran⟩
      · obtain ⟨flow',other,alike⟩ := step_alike both (stepRefs_tail ends) (step_set keys ran) ran
        obtain ⟨flow'',plain,alike'⟩ := step_flags left ends ran
        rw [other]
        cases flow with
        | brk f =>
          cases flow' with
          | cont f' => cases alike
          | brk f' =>
            cases flow'' with
            | cont w => cases alike'
            | brk w => exact .inl ⟨.inr ⟨f,f',rfl,rfl,Flow.brk.inj alike⟩,.inl (by simp only [lastRef,plain])⟩
        | cont f =>
          cases flow' with
          | brk f' => cases alike
          | cont f' =>
            cases flow'' with
            | brk w => cases alike'
            | cont w =>
              have first : f.flags = w.flags := Flow.cont.inj alike'
              have second : f'.flags = w.flags := (Flow.cont.inj alike).symm.trans first
              have set : ∀ k ∈ stepRefs u block, (m k).isSome = true := by
                rw [← stepRefs_flags left]
                exact step_set (fun _ => rfl) ran
              rcases ih terminated.2 first second with together | parting
              · exact .inl (together.cons plain (by simp))
              · exact .inr (parting.cons plain (by simp) set)

theorem ends_once (ends : endsWith c text = true) (other : c ≠ d) : endsWith d text = false := by
  have last : text.getLast? = some c := by simpa [endsWith] using ends
  simp [endsWith,last,other]

theorem turned_no (quote : Quoted) (text : Str) : turned quote text = .no ↔ (turnsQuote quote text = true ↔ quote ≠ .no) := by
  unfold turned turnsQuote plainBlock
  by_cases escape : endsWith backslash text = true
  · have double : endsWith doubleQuote text = false := ends_once escape (by decide)
    have single : endsWith singleQuote text = false := ends_once escape (by decide)
    cases quote <;> simp [escape,double,single,LineState.push]
    repeat' split
    all_goals simp
  · by_cases double : endsWith doubleQuote text = true
    · have single : endsWith singleQuote text = false := ends_once double (by decide)
      cases quote <;> simp [escape,double,single,LineState.push]
    · by_cases single : endsWith singleQuote text = true
      · cases quote <;> simp [escape,double,single,LineState.push]
      · cases quote <;> simp [escape,double,single,LineState.push] <;> repeat' split
        all_goals simp

theorem varKey_ends (named : varKey block = some k) (empty : varTail block = []) : ∃ front, block = front ++ [closeBrace] := by
  have whole := flatten_splitInclusive brace block
  have filled : ∀ piece ∈ splitInclusive brace block, piece ≠ [] := fun piece member => splitInclusive_ne_nil member
  unfold varKey at named
  unfold varTail at empty
  generalize splitInclusive brace block = pieces at whole filled named empty
  rcases pieces with _ | ⟨first,_ | ⟨var,_ | ⟨third,rest⟩⟩⟩
  · cases named
  · cases named
  · simp only at named
    split at named
    · rename_i closed
      have last : var.getLast? = some closeBrace := by simpa [endsWith] using closed.2
      obtain ⟨front,equal⟩ := List.getLast?_eq_some_iff.mp last
      exact ⟨first ++ front,by rw [← whole,equal]; simp⟩
    · cases named
  · exact absurd empty (filled third (by simp))

theorem lastRef_ends (blocks : List Str) (u : LineState) (final : lastRef u blocks = some (quote,k)) :
    ∃ front, blocks.flatten = front ++ [closeBrace] := by
  induction blocks generalizing u with
  | nil => cases final
  | cons block rest ih =>
    cases rest with
    | nil =>
      obtain ⟨_,_,empty,named⟩ := lastRef_single final
      rw [List.flatten_singleton]
      exact varKey_ends named empty
    | cons next rest =>
      rw [lastRef.eq_3 _ _ _ (by simp)] at final
      split at final
      · rename_i w _
        obtain ⟨front,equal⟩ := ih w final
        exact ⟨block ++ front,by rw [List.flatten_cons,equal,List.append_assoc]⟩
      · cases final

-- Behind a closing brace there is no backslash for the quote to decide about.
theorem retained_brace (quote : Quoted) (front : Str) : retained quote (front ++ [closeBrace]) = front ++ [closeBrace] ++ [space] := by
  have kept : trimEnd (front ++ [closeBrace]) = front ++ [closeBrace] :=
    List.rdropWhile_concat_neg _ _ _ (by decide)
  have other : endsWith backslash (front ++ [closeBrace]) = false := by simp +decide [endsWith]
  simp [retained,kept,other]

theorem finalRef_ends (final : finalRef line = some (quote,k)) : ∃ front, trimStart line = front ++ [closeBrace] := by
  unfold finalRef valueOf at final
  cases cut : splitOnce '=' (trimStart line) with
  | none => rw [cut] at final; cases final
  | some pair =>
    obtain ⟨key,val⟩ := pair
    rw [cut] at final
    simp only at final
    split at final
    · cases final
    · obtain ⟨front,equal⟩ := lastRef_ends _ _ final
      rw [flatten_splitInclusive] at equal
      have equal : val = front ++ [closeBrace] := equal
      exact ⟨key ++ '=' :: front,by rw [splitOnce_eq cut,equal]; simp⟩

theorem values_opaque_iff (line : Str) (keys : SameKeys m m') :
    Opaque line m m' ↔ ∀ quote k v v', finalRef line = some (quote,k) → (∀ r ∈ kvRefs line, (m r).isSome = true) →
      m k = some v → m' k = some v' → turnsQuote quote v = turnsQuote quote v' := by
  rcases process_cases line with ⟨unread,_,constant⟩ | ⟨key,val,read,_,refs,looked⟩
  · have same := constant m m'
    refine ⟨fun _ quote k v v' final => ?_,fun _ => ?_⟩
    · rw [finalRef,unread] at final
      cases final
    · unfold Opaque
      rw [same]
      rcases kvProcess line m' with ⟨e | result,buffer⟩ <;> exact ⟨rfl,rfl⟩
  · have final : finalRef line = lastRef {} (splitInclusive special val) := by rw [finalRef,read]; rfl
    rcases loop_pair (s:={}) (t:={}) (u:={}) _ (special_terminated val) rfl rfl keys with
      ⟨outcome,reason⟩ | ⟨quote,k,v,v',f,f',found,set,left,right,ran,ran',after,after'⟩
    · refine ⟨fun _ quote k v v' ends set => ?_,fun _ => ?_⟩
      · rw [final] at ends
        rcases reason with none | ⟨r,member,unset⟩
        · rw [none] at ends
          cases ends
        · have present := set r (by rw [refs]; exact member)
          rw [unset] at present
          cases present
      · unfold Opaque
        rw [looked m,looked m']
        rcases outcome with ⟨e,failed,failed'⟩ | ⟨f,f',ran,ran',alike⟩
        · rw [failed,failed']
          exact ⟨rfl,rfl⟩
        · have quote : f'.inquote = f.inquote := (congrArg LineState.inquote alike).symm
          rw [ran,ran']
          simp only [quote]
          by_cases shut : f.inquote = .no <;> simp [shut]
    · have ends := final.trans found
      obtain ⟨front,trimmed⟩ := finalRef_ends ends
      have alike : Opaque line m m' ↔ (turned quote v = .no ↔ turned quote v' = .no) := by
        unfold Opaque
        rw [looked m,looked m',ran,ran']
        simp only [after,after',trimmed,retained_brace]
        by_cases shut : turned quote v = .no <;> by_cases shut' : turned quote v' = .no <;> simp [shut,shut']
      rw [alike,turned_no,turned_no]
      constructor
      · intro same quote' k' w w' ends' _ left' right'
        rw [ends] at ends'
        cases ends'
        rw [left] at left'
        rw [right] at right'
        cases left'
        cases right'
        cases turns : turnsQuote quote v <;> cases turns' : turnsQuote quote v' <;> simp_all
      · intro same
        rw [same quote k v v' ends (by rw [refs]; exact set) left right]

-- k=${A} without a newline, A once harmless and once ending in a quote.
def unendedRef : Str := "k=$\x7bA\x7d".toList

theorem values_opaque_same : SameKeys (Map.empty.insert ['A'] "x".toList) (Map.empty.insert ['A'] "y z".toList) ∧
    Opaque unendedRef (Map.empty.insert ['A'] "x".toList) (Map.empty.insert ['A'] "y z".toList) := by
  have keys : SameKeys (Map.empty.insert ['A'] "x".toList) (Map.empty.insert ['A'] "y z".toList) := by
    intro k
    by_cases same : k = ['A'] <;> simp [Map.insert,same]
  refine ⟨keys,(values_opaque_iff unendedRef keys).mpr ?_⟩
  intro quote k v v' final _ left right
  have found : finalRef unendedRef = some (.no,['A']) := by decide +kernel
  rw [found] at final
  cases final
  have left : "x".toList = v := by simpa [Map.insert] using left
  have right : "y z".toList = v' := by simpa [Map.insert] using right
  rw [← left,← right]
  decide +kernel

theorem value_opens_quote : SameKeys (Map.empty.insert ['A'] "x".toList) (Map.empty.insert ['A'] "x\"".toList) ∧
    ¬Opaque unendedRef (Map.empty.insert ['A'] "x".toList) (Map.empty.insert ['A'] "x\"".toList) := by
  have keys : SameKeys (Map.empty.insert ['A'] "x".toList) (Map.empty.insert ['A'] "x\"".toList) := by
    intro k
    by_cases same : k = ['A'] <;> simp [Map.insert,same]
  refine ⟨keys,?_⟩
  have plain : kvProcess unendedRef (Map.empty.insert ['A'] "x".toList) = (.ok (some (['k'],['x'])),[]) := by decide +kernel
  have opened : kvProcess unendedRef (Map.empty.insert ['A'] "x\"".toList) = (.ok none,unendedRef ++ [space]) := by
    decide +kernel
  unfold Opaque
  rw [plain,opened]
  rintro ⟨result,_⟩
  cases result

end Rapido.KvConf
