import Rapido.KvConf

-- rapido.conf as the host reads it, over its defaults, and as the guest reads
-- the archived copy of it, from nothing.
namespace Rapido.KvConf
open Text
variable {m m' : Map} {s t : LineState} {block : Str} {blocks : List Str} {k : Str} {flow : Flow}

-- src/lib.rs
def confDefaults : Map := [("DRACUT_OUT","initrds/myinitrd"),("QEMU_PID_DIR","initrds"),("VM_NET_CONF","net-conf"),
  ("QEMU_EXTRA_ARGS","-nographic -device virtio-rng-pci")].foldl
  (fun map (key,val) => map.insert key.toList val.toList) .empty

def HostAccepts (text : Str) : Prop := (kvConfProcessAppend text confDefaults).1 = .ok ()
def GuestAccepts (text : Str) : Prop := ∃ map, kvConfProcess text = .ok map

-- The key that a block after an unescaped $ looks up, and what it keeps.
def varKey (block : Str) : Option Str :=
  match splitInclusive brace block with
  | first :: var :: _ => if first = [openBrace] ∧ endsWith closeBrace var then some var.dropLast else none
  | _ => none
def varTail (block : Str) : Str := ((splitInclusive brace block)[2]?).getD []

-- Every variable set, to nothing.
def blank : Map := fun _ => some []

def stepRefs (s : LineState) (block : Str) : List Str :=
  if ¬s.escapeNext ∧ ¬s.commentNext ∧ s.varNext then (varKey block).toList else []

-- The variables a line refers to, found without knowing any value.
def blockRefs (s : LineState) : List Str → List Str
  | [] => []
  | block :: rest =>
    stepRefs s block ++
      match blockStep blank s block with
      | .ok (.cont s) => blockRefs s rest
      | _ => []

-- The key and the value of a line that kv_process comes to read as one.
def valueOf (line : Str) : Option (Str × Str) :=
  match splitOnce '=' (trimStart line) with
  | none => none
  | some (key,val) =>
    if startsWith '#' (trimStart line) ∨ key = [] ∨ key.any invalidInKey then none else some (key,val)

def kvRefs (line : Str) : List Str :=
  match splitOnce '=' (trimStart line) with
  | none => []
  | some (key,val) =>
    if startsWith '#' (trimStart line) ∨ key = [] ∨ key.any invalidInKey then []
    else blockRefs {} (splitInclusive special val)

-- Every reference is to a key that an earlier line assigns.
def selfContained (seen : List Str) (buffer : Str) : List Str → Bool
  | [] => true
  | line :: rest => (kvRefs (buffer ++ line)).all (· ∈ seen) &&
    match kvProcess (buffer ++ line) blank with
    | (.ok (some (k,_)),buffer) => selfContained (k :: seen) buffer rest
    | (.ok none,buffer) => selfContained seen buffer rest
    | (.error _,_) => true

theorem kvVarSub_key (block : Str) : (∃ e, varKey block = none ∧ ∀ m, kvVarSub block m = .error e) ∨
    ∃ k, varKey block = some k ∧ ∀ m, kvVarSub block m = match m k with
      | some val => .ok (val ++ varTail block)
      | none => .error (.err "invalid variable substitution: not seen") := by
  unfold kvVarSub varKey varTail
  rcases splitInclusive brace block with _ | ⟨first,_ | ⟨var,rest⟩⟩
  · exact .inl ⟨_,rfl,fun m => rfl⟩
  · refine .inl ?_
    by_cases opened : first = [openBrace]
    · exact ⟨_,rfl,fun m => by simp [opened]; rfl⟩
    · exact ⟨_,rfl,fun m => by simp [opened]; rfl⟩
  · by_cases opened : first = [openBrace]
    · by_cases closed : endsWith closeBrace var = true
      · refine .inr ⟨var.dropLast,by simp [opened,closed],fun m => ?_⟩
        cases found : m var.dropLast <;> cases rest <;> simp [opened,closed,found]
      · exact .inl ⟨_,by simp [closed],fun m => by simp [opened,closed]; rfl⟩
    · exact .inl ⟨_,by simp [opened],fun m => by simp [opened]; rfl⟩

def nonBrace (c : Char) : Bool := !brace c

theorem varTail_ne_nil (ends : EndsIn nonBrace block) (key : varKey block = some k) : varTail block ≠ [] := by
  have whole := flatten_splitInclusive brace block
  have filled : ∀ piece ∈ splitInclusive brace block, piece ≠ [] := fun piece member => splitInclusive_ne_nil member
  unfold varKey at key
  unfold varTail
  generalize splitInclusive brace block = pieces at whole filled key ⊢
  rcases pieces with _ | ⟨first,_ | ⟨var,_ | ⟨third,rest⟩⟩⟩
  · cases key
  · cases key
  · -- the block would be nothing but the braces and what they enclose
    simp only at key
    split at key
    · rename_i closed
      obtain ⟨c,last,ordinary⟩ := ends
      have filled' : var ≠ [] := filled var (by simp)
      have final : var.getLast? = some c := by
        rw [← whole] at last
        simpa [List.getLast?_append_of_ne_nil _ filled'] using last
      have same : c = closeBrace := by simpa [endsWith,final] using closed.2
      rw [same] at ordinary
      exact absurd ordinary (by decide)
    · cases key
  · exact filled third (by simp)

-- Everything of a state but the text collected so far.
def LineState.flags (s : LineState) : LineState := {s with unquotedVal:=[]}
def Flow.flags : Flow → Flow
  | .brk s => .brk s.flags
  | .cont s => .cont s.flags

theorem same_flags (same : LineState.flags s = LineState.flags t) : ∃ val, t = {s with unquotedVal:=val} := by
  obtain ⟨quote,escape,comment,var,val⟩ := s
  obtain ⟨quote',escape',comment',var',val'⟩ := t
  simp only [LineState.flags,LineState.mk.injEq] at same
  obtain ⟨rfl,rfl,rfl,rfl,_⟩ := same
  exact ⟨val',rfl⟩

theorem plainBlock_flags (same : s.flags = t.flags) (ends : ∀ c, endsWith c block = endsWith c block') :
    (plainBlock s block).flags = (plainBlock t block').flags := by
  obtain ⟨val,rfl⟩ := same_flags same
  obtain ⟨quote,escape,comment,var,old⟩ := s
  cases quote <;> simp only [plainBlock,ends] <;> repeat' split
  all_goals simp_all [LineState.flags,LineState.push]

theorem endsWith_tail (some : tail ≠ []) (c : Char) (front : Str) : endsWith c (front ++ tail) = endsWith c tail := by
  rw [endsWith,endsWith,List.getLast?_append_of_ne_nil _ some]

theorem escapedBlock_flags (same : s.flags = t.flags) (ran : escapedBlock s block = .ok flow) :
    ∃ flow', escapedBlock t block = .ok flow' ∧ flow.flags = flow'.flags := by
  obtain ⟨val,rfl⟩ := same_flags same
  unfold escapedBlock at ran ⊢
  simp only at ran ⊢
  split at ran
  · rename_i found
    rw [if_pos found]
    split at ran
    · cases ran
    · rename_i width
      rw [if_neg width]
      cases ran
      exact ⟨_,rfl,rfl⟩
  · rename_i other
    rw [if_neg other]
    split at ran
    · rename_i multiline
      rw [if_pos multiline]
      cases ran
      exact ⟨_,rfl,rfl⟩
    · cases ran

theorem commentBlock_flags (same : s.flags = t.flags) (ran : commentBlock s block = .ok flow) :
    ∃ flow', commentBlock t block = .ok flow' ∧ flow.flags = flow'.flags := by
  obtain ⟨val,rfl⟩ := same_flags same
  unfold commentBlock at ran ⊢
  simp only at ran ⊢
  split at ran
  · cases ran
  · rename_i outside
    rw [if_neg outside]
    split at ran
    · rename_i hash
      rw [if_pos hash]
      cases ran
      exact ⟨_,rfl,rfl⟩
    · rename_i other
      rw [if_neg other]
      split at ran
      · rename_i empty
        rw [if_pos empty]
        cases ran
        exact ⟨_,rfl,rfl⟩
      · cases ran

-- A substituted block ends in what follows the closing brace, whatever the
-- variable held.
theorem kvVarSub_ends (tail : ∀ k, varKey block = some k → varTail block ≠ [])
    (set : ∀ k, varKey block = some k → (m' k).isSome = true) (ran : kvVarSub block m = .ok out) :
    ∃ out', kvVarSub block m' = .ok out' ∧ ∀ c, endsWith c out = endsWith c out' := by
  rcases kvVarSub_key block with ⟨e,_,fails⟩ | ⟨k,key,looked⟩
  · rw [fails m] at ran
    cases ran
  · obtain ⟨value',other⟩ := Option.isSome_iff_exists.mp (set k key)
    rw [looked m] at ran
    rw [looked m',other]
    cases found : m k with
    | none =>
      rw [found] at ran
      cases ran
    | some value =>
      rw [found] at ran
      cases ran
      refine ⟨_,rfl,?_⟩
      intro c
      rw [endsWith_tail (tail k key),endsWith_tail (tail k key)]

theorem stepRefs_tail (ends : EndsIn nonBrace block) : ∀ k ∈ stepRefs s block, varTail block ≠ [] := by
  intro k member
  unfold stepRefs at member
  split at member
  · exact varTail_ne_nil ends (Option.mem_toList.mp member)
  · cases member

-- As long as the lookups succeed, values do not influence how a line is read.
theorem step_alike (same : s.flags = t.flags) (tail : ∀ k ∈ stepRefs s block, varTail block ≠ [])
    (set : ∀ k ∈ stepRefs s block, (m' k).isSome = true) (ran : blockStep m s block = .ok flow) :
    ∃ flow', blockStep m' t block = .ok flow' ∧ flow.flags = flow'.flags := by
  have alike := same
  obtain ⟨val,rfl⟩ := same_flags same
  unfold blockStep at ran ⊢
  unfold stepRefs at set tail
  by_cases escaped : s.escapeNext = true
  · rw [if_pos escaped] at ran ⊢
    exact escapedBlock_flags alike ran
  · rw [if_neg escaped] at ran ⊢
    by_cases commented : s.commentNext = true
    · rw [if_pos commented] at ran ⊢
      exact commentBlock_flags alike ran
    · rw [if_neg commented] at ran ⊢
      by_cases substituted : s.varNext = true
      · rw [if_pos substituted] at ran ⊢
        rw [if_pos ⟨escaped,commented,substituted⟩] at set tail
        cases got : kvVarSub block m with
        | error e =>
          rw [got] at ran
          cases ran
        | ok out =>
          rw [got] at ran
          cases ran
          obtain ⟨out',other,ending⟩ := kvVarSub_ends (fun k key => tail k (by simp [key])) (fun k key => set k (by simp [key])) got
          rw [other]
          exact ⟨_,rfl,congrArg Flow.cont (plainBlock_flags rfl ending)⟩
      · rw [if_neg substituted] at ran ⊢
        cases ran
        exact ⟨_,rfl,congrArg Flow.cont (plainBlock_flags alike fun c => rfl)⟩

theorem step_flags (same : s.flags = t.flags) (ends : EndsIn nonBrace block) (ran : blockStep m s block = .ok flow) :
    ∃ flow', blockStep blank t block = .ok flow' ∧ flow.flags = flow'.flags :=
  step_alike same (stepRefs_tail ends) (fun _ _ => rfl) ran

theorem stepRefs_flags (same : s.flags = t.flags) : stepRefs s block = stepRefs t block := by
  obtain ⟨val,rfl⟩ := same_flags same
  rfl

theorem step_congr (agree : ∀ k ∈ stepRefs s block, m k = m' k) : blockStep m s block = blockStep m' s block := by
  unfold blockStep
  unfold stepRefs at agree
  by_cases escaped : s.escapeNext = true
  · rw [if_pos escaped,if_pos escaped]
  · by_cases commented : s.commentNext = true
    · simp only [if_neg escaped,if_pos commented]
    · by_cases substituted : s.varNext = true
      · simp only [if_neg escaped,if_neg commented,if_pos substituted]
        rw [if_pos ⟨escaped,commented,substituted⟩] at agree
        rcases kvVarSub_key block with ⟨e,_,fails⟩ | ⟨k,key,looked⟩
        · rw [fails m,fails m']
        · rw [looked m,looked m',agree k (by simp [key])]
      · simp only [if_neg escaped,if_neg commented,if_neg substituted]

theorem step_missing (member : k ∈ stepRefs s block) (missing : m k = none) : ∃ e, blockStep m s block = .error e := by
  unfold stepRefs at member
  split at member
  · rename_i active
    obtain ⟨unescaped,uncommented,substituted⟩ := active
    rcases kvVarSub_key block with ⟨e,none,_⟩ | ⟨k',key,looked⟩
    · rw [none] at member
      cases member
    · rw [key] at member
      have same : k = k' := List.mem_singleton.mp member
      refine ⟨.err "invalid variable substitution: not seen",?_⟩
      simp only [blockStep,if_neg unescaped,if_neg uncommented,if_pos substituted,looked m,← same,missing]
  · cases member

theorem loop_congr (terminated : Terminated nonBrace blocks) (same : s.flags = t.flags)
    (agree : ∀ k ∈ blockRefs t blocks, m k = m' k) : blockLoop m s blocks = blockLoop m' s blocks := by
  induction blocks generalizing s t with
  | nil => rfl
  | cons block rest ih =>
    have here : blockStep m s block = blockStep m' s block := by
      apply step_congr
      intro k member
      rw [stepRefs_flags same] at member
      exact agree k (List.mem_append_left _ member)
    simp only [blockLoop,← here]
    rcases ran : blockStep m s block with e | (s' | s')
    · rfl
    · rfl
    · cases rest with
      | nil => rfl
      | cons next rest =>
        obtain ⟨flow,stepped,equal⟩ := step_flags same (terminated.1 (by simp)) ran
        cases flow with
        | brk t' => cases equal
        | cont t' =>
          refine ih terminated.2 (Flow.cont.inj equal) fun k member => agree k ?_
          rw [blockRefs,stepped]
          exact List.mem_append_right _ member

theorem loop_missing (terminated : Terminated nonBrace blocks) (same : s.flags = t.flags)
    (member : k ∈ blockRefs t blocks) (missing : m k = none) : ∃ e, blockLoop m s blocks = .error e := by
  induction blocks generalizing s t with
  | nil => cases member
  | cons block rest ih =>
    rw [blockRefs] at member
    rcases List.mem_append.mp member with here | later
    · rw [← stepRefs_flags same] at here
      obtain ⟨e,failed⟩ := step_missing here missing
      exact ⟨e,by rw [blockLoop,failed]⟩
    · rw [blockLoop]
      rcases ran : blockStep m s block with e | (s' | s')
      · exact ⟨e,rfl⟩
      · cases rest with
        | nil => split at later <;> cases later
        | cons next rest =>
          obtain ⟨flow,stepped,equal⟩ := step_flags same (terminated.1 (by simp)) ran
          cases flow with
          | brk t' => rw [stepped] at later; cases later
          | cont t' => cases equal
      · cases rest with
        | nil => split at later <;> cases later
        | cons next rest =>
          obtain ⟨flow,stepped,equal⟩ := step_flags same (terminated.1 (by simp)) ran
          cases flow with
          | brk t' => cases equal
          | cont t' =>
            rw [stepped] at later
            exact ih terminated.2 (Flow.cont.inj equal) later

theorem loop_blank (ends : ∀ block ∈ blocks, EndsIn nonBrace block) (same : s.flags = t.flags)
    (ran : blockLoop m s blocks = .ok final) :
    ∃ final', blockLoop blank t blocks = .ok final' ∧ final.flags = final'.flags := by
  induction blocks generalizing s t with
  | nil =>
    cases ran
    exact ⟨t,rfl,same⟩
  | cons block rest ih =>
    rw [blockLoop] at ran ⊢
    rcases stepped : blockStep m s block with e | (s' | s')
    · rw [stepped] at ran; cases ran
    · obtain ⟨flow,blankStep,equal⟩ := step_flags same (ends block (by simp)) stepped
      rw [stepped] at ran
      cases ran
      cases flow with
      | cont t' => cases equal
      | brk t' =>
        rw [blankStep]
        exact ⟨t',rfl,Flow.brk.inj equal⟩
    · obtain ⟨flow,blankStep,equal⟩ := step_flags same (ends block (by simp)) stepped
      rw [stepped] at ran
      cases flow with
      | brk t' => cases equal
      | cont t' =>
        rw [blankStep]
        exact ih (fun block member => ends block (List.mem_cons_of_mem _ member)) (Flow.cont.inj equal) ran

theorem special_nonBrace (c : Char) (found : special c = true) : nonBrace c = true := by
  have cases' : c = backslash ∨ c = doubleQuote ∨ c = singleQuote ∨ c = space ∨ c = tab ∨ c = dollar := by
    simpa [special] using found
  rcases cases' with rfl | rfl | rfl | rfl | rfl | rfl <;> rfl

theorem special_terminated (val : Str) : Terminated nonBrace (splitInclusive special val) :=
  (splitInclusive_terminated special val).mono special_nonBrace

variable {line : Str}

-- The two ways kv_process can come to look at blocks at all.
theorem process_cases (line : Str) : (valueOf line = none ∧ kvRefs line = [] ∧ ∀ m m', kvProcess line m = kvProcess line m') ∨
    ∃ key val, valueOf line = some (key,val) ∧ splitOnce '=' (trimStart line) = some (key,val) ∧
      kvRefs line = blockRefs {} (splitInclusive special val) ∧
      ∀ m, kvProcess line m = match blockLoop m {} (splitInclusive special val) with
        | .error e => (.error e,line)
        | .ok s => if s.inquote ≠ .no then (.ok none,retained s.inquote (trimStart line))
          else (.ok (some (key,s.unquotedVal)),[]) := by
  unfold valueOf kvRefs kvProcess
  by_cases empty : trimStart line = []
  · refine .inl ⟨by simp [empty,splitOnce],by simp [empty,splitOnce],fun m m' => by simp [empty]⟩
  · by_cases hash : startsWith '#' (trimStart line) = true
    · refine .inl ⟨?_,?_,fun m m' => by simp [hash]⟩
      · split <;> simp [hash]
      · split <;> simp [hash]
    · cases cut : splitOnce '=' (trimStart line) with
      | none => exact .inl ⟨rfl,rfl,fun m m' => by simp [cut]⟩
      | some pair =>
        obtain ⟨key,val⟩ := pair
        by_cases unnamed : key = []
        · exact .inl ⟨by simp [unnamed],by simp [unnamed],fun m m' => by simp [cut,unnamed]⟩
        · by_cases invalid : key.any invalidInKey = true
          · exact .inl ⟨by simp [invalid],by simp [invalid],fun m m' => by simp [cut,invalid]⟩
          · refine .inr ⟨key,val,by simp [hash,unnamed,invalid],rfl,by simp [hash,unnamed,invalid],fun m => ?_⟩
            cases looped : blockLoop m {} (splitInclusive special val) <;>
              simp only [empty,hash,cut,unnamed,invalid,looped,or_self,if_false,Bool.false_eq_true]

theorem process_congr (agree : ∀ k ∈ kvRefs line, m k = m' k) : kvProcess line m = kvProcess line m' := by
  rcases process_cases line with ⟨_,_,constant⟩ | ⟨key,val,_,_,refs,looked⟩
  · exact constant m m'
  · rw [refs] at agree
    rw [looked m,looked m',loop_congr (special_terminated val) rfl agree]

theorem process_missing (member : k ∈ kvRefs line) (missing : m k = none) :
    ∃ e buffer, kvProcess line m = (.error e,buffer) := by
  rcases process_cases line with ⟨_,none,_⟩ | ⟨key,val,_,_,refs,looked⟩
  · rw [none] at member; cases member
  · rw [refs] at member
    obtain ⟨e,failed⟩ := loop_missing (special_terminated val) rfl member missing
    exact ⟨e,line,by rw [looked m,failed]⟩

-- A line that has its newline is read the same way whatever the values are.
theorem process_blank (closed : EndsIn (· == newline) line) (ran : kvProcess line m = (.ok result,buffer)) :
    ∃ result', kvProcess line blank = (.ok result',buffer) ∧ result'.map Prod.fst = result.map Prod.fst := by
  rcases process_cases line with ⟨_,_,constant⟩ | ⟨key,val,_,cut,_,looked⟩
  · exact ⟨result,by rw [constant blank m,ran],rfl⟩
  · have parts := splitOnce_eq cut
    have whole : EndsIn nonBrace val := by
      obtain ⟨c,last,isNewline⟩ := closed
      have same : c = newline := by simpa using isNewline
      obtain ⟨front,split⟩ := List.dropWhile_suffix (l:=line) (p:=whitespace)
      have shape : line = front ++ (key ++ '=' :: val) := by rw [← split,← parts]; rfl
      rw [shape,List.getLast?_append_of_ne_nil _ (by simp),List.getLast?_append_of_ne_nil _ (by simp),List.getLast?_cons,
        same] at last
      cases val with
      | nil => exact absurd last (by decide)
      | cons b val =>
        refine ⟨newline,?_,rfl⟩
        rw [List.getLast?_cons] at last ⊢
        simpa using last
    rw [← flatten_splitInclusive special val] at whole
    have ends := (special_terminated val).all whole fun piece member => splitInclusive_ne_nil member
    rw [looked m] at ran
    cases loop : blockLoop m {} (splitInclusive special val) with
    | error e => rw [loop] at ran; cases ran
    | ok final =>
      obtain ⟨final',blankLoop,flags⟩ := loop_blank ends rfl loop
      have quote : final'.inquote = final.inquote := (congrArg LineState.inquote flags).symm
      rw [loop] at ran
      rw [looked blank,blankLoop]
      simp only [quote] at ran ⊢
      split at ran
      · rename_i opened
        cases ran
        exact ⟨none,by rw [if_pos opened],rfl⟩
      · rename_i shut
        cases ran
        exact ⟨some (key,final'.unquotedVal),by rw [if_neg shut],rfl⟩

-- The guest's map holds what the lines so far assigned, the host's map that and more.
structure Below (seen : List Str) (guest host : Map) : Prop where
  shared : ∀ k ∈ seen, guest k = host k
  only : ∀ k, k ∉ seen → guest k = none

theorem Below.insert (below : Below seen guest host) (key val : Str) :
    Below (key :: seen) (guest.insert key val) (host.insert key val) := by
  refine ⟨?_,?_⟩
  · intro k member
    by_cases same : k = key
    · simp [Map.insert,same]
    · have earlier : k ∈ seen := (List.mem_cons.mp member).resolve_left same
      simp [Map.insert,same,below.shared k earlier]
  · intro k absent
    have other : k ≠ key := fun same => absent (same ▸ List.mem_cons_self ..)
    simp [Map.insert,other,below.only k fun member => absent (List.mem_cons_of_mem _ member)]

-- What the rest of the text has to satisfy, seen from the host's reading of a line.
theorem contained_next (rest : List Str) (shape : rest ≠ [] → EndsIn (· == newline) line)
    (ran : kvProcess (buffer ++ line) m = (.ok result,next)) :
    selfContained seen buffer (line :: rest) = true ↔ (∀ k ∈ kvRefs (buffer ++ line), k ∈ seen) ∧
      selfContained (result.elim seen fun pair => pair.1 :: seen) next rest = true := by
  cases rest with
  | nil =>
    simp only [selfContained,Bool.and_eq_true,List.all_eq_true,decide_eq_true_eq,and_true]
    refine ⟨fun both => both.1,fun inside => ⟨inside,?_⟩⟩
    split <;> rfl
  | cons second rest =>
    obtain ⟨c,last,isNewline⟩ := shape (by simp)
    have filled : line ≠ [] := by intro empty; rw [empty] at last; cases last
    have closed : EndsIn (· == newline) (buffer ++ line) :=
      ⟨c,by rw [List.getLast?_append_of_ne_nil _ filled,last],isNewline⟩
    obtain ⟨result',blankRan,keys⟩ := process_blank closed ran
    rw [selfContained,blankRan,Bool.and_eq_true,List.all_eq_true]
    simp only [decide_eq_true_eq]
    cases result with
    | none =>
      cases result' with
      | none => rfl
      | some pair => cases keys
    | some pair =>
      cases result' with
      | none => cases keys
      | some pair' =>
        obtain ⟨key,val⟩ := pair
        obtain ⟨key',val'⟩ := pair'
        have same : key' = key := Option.some.inj keys
        subst same
        rfl

theorem Below.assign (below : Below seen guest host) (result : Option (Str × Str)) :
    Below (result.elim seen fun pair => pair.1 :: seen) (assignResult guest result) (assignResult host result) := by
  cases result with
  | none => exact below
  | some pair => exact below.insert pair.1 pair.2

theorem append_iff (lines : List Str) (shape : Terminated (· == newline) lines) (below : Below seen guest host)
    (accepted : (appendLines linenum buffer host lines).1 = .ok ()) :
    (appendLines linenum buffer guest lines).1 = .ok () ↔ selfContained seen buffer lines = true := by
  induction lines generalizing linenum buffer guest host seen with
  | nil =>
    refine ⟨fun _ => rfl,fun _ => ?_⟩
    obtain ⟨rfl,_⟩ := append_done (Prod.ext accepted rfl)
    rfl
  | cons line rest ih =>
    obtain ⟨short,result,next,ran,_⟩ := append_inverted (Prod.ext accepted rfl)
    rw [append_step short ran] at accepted
    rw [contained_next rest shape.1 ran]
    by_cases inside : ∀ k ∈ kvRefs (buffer ++ line), k ∈ seen
    · have equal : kvProcess (buffer ++ line) guest = (.ok result,next) := by
        rw [← ran]
        exact process_congr fun k member => below.shared k (inside k member)
      rw [append_step short equal,and_iff_right inside]
      exact ih shape.2 (below.assign result) accepted
    · refine ⟨fun ok => ?_,fun both => absurd both.1 inside⟩
      push Not at inside
      obtain ⟨k,member,unseen⟩ := inside
      obtain ⟨e,_,failed⟩ := process_missing member (below.only k unseen)
      obtain ⟨_,_,_,succeeds,_⟩ := append_inverted (Prod.ext ok rfl)
      rw [failed] at succeeds
      cases succeeds

-- Under its own reading the guest follows the host exactly on the texts whose
-- references stay within the text.
theorem guest_accepts_iff (text : Str) (accepted : HostAccepts text) :
    GuestAccepts text ↔ selfContained [] [] (linesOf text) = true := by
  have below : Below [] .empty confDefaults := ⟨by simp,fun _ _ => rfl⟩
  rw [← append_iff (linesOf text) (splitInclusive_terminated _ _) below accepted]
  unfold GuestAccepts kvConfProcess kvConfProcessAppend
  constructor
  · rintro ⟨map,ran⟩
    split at ran
    · rename_i ok
      rw [ok]
    · cases ran
  · intro ok
    generalize appendLines 1 [] .empty (linesOf text) = pair at ok
    obtain ⟨result,map⟩ := pair
    cases ok
    exact ⟨map,rfl⟩

def ownKey : Str := "DRACUT_OUT=a\nX=$\x7bDRACUT_OUT\x7d\n".toList
def defaultKey : Str := "X=$\x7bDRACUT_OUT\x7d\n".toList

theorem guest_accepts_own_key : HostAccepts ownKey ∧ GuestAccepts ownKey := by
  have accepted : HostAccepts ownKey := by unfold HostAccepts; decide +kernel
  exact ⟨accepted,(guest_accepts_iff ownKey accepted).mpr (by decide +kernel)⟩

theorem guest_rejects_default : HostAccepts defaultKey ∧ ¬GuestAccepts defaultKey := by
  refine ⟨by unfold HostAccepts; decide +kernel,?_⟩
  rintro ⟨map,ran⟩
  have failed : (kvConfProcessAppend defaultKey .empty).1 =
      .error ⟨.invalidInput,"line 1: invalid variable substitution: not seen"⟩ := by decide +kernel
  unfold kvConfProcess at ran
  generalize kvConfProcessAppend defaultKey .empty = pair at ran failed
  obtain ⟨result,after⟩ := pair
  cases failed
  cases ran

end Rapido.KvConf
