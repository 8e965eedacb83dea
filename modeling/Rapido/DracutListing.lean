import Rapido.DracutCpio
import Rapido.CpioRoundTrip

-- The list of paths as archive_loop reads it, and the archive that it leaves.
namespace Rapido.DracutCpio
open UnixPath Cpio Newc

-- reader.by_ref().take(limit).read_until(LIST_SEPARATOR, ..): what it appends
-- to the buffer, and what the reader still holds.
def readUntil : Nat → List UInt8 → List UInt8 × List UInt8
  | 0,reader => ([],reader)
  | _+1,[] => ([],[])
  | limit+1,b :: reader =>
    if b = LIST_SEPARATOR then ([b],reader)
    else match readUntil limit reader with
      | (linebuf,rest) => (b :: linebuf,rest)

-- The loop of archive_loop. Reading nothing is the end of the input.
def readLoop (fs : FileSystem) : Nat → List UInt8 → Write Unit
  | 0,_ => .fail (.ofKind .outOfFuel)
  | fuel+1,reader => match readUntil PATH_MAX reader with
    | (linebuf,rest) =>
      if linebuf.length = 0 then pure ()
      else do
        archiveLine fs linebuf
        readLoop fs fuel rest

-- archive_loop with its reader: no turn but the last one reads nothing.
def archiveReader (fs : FileSystem) (props : ArchiveProperties) (input : List UInt8) : Except IoError UInt64 × Archive :=
  if refused props then (.error ⟨.invalidInput,"data alignment must be a multiple of 4"⟩,.new props)
  else (do
    readLoop fs (input.length + 1) input
    archiveEnd).run (.new props)

-- The first line, and what a limited read makes of it.
theorem readUntil_line (limit : Nat) (some : input ≠ []) : ∃ line rest, listedLines input = line :: listedLines rest ∧
    input = line ++ rest ∧ line ≠ [] ∧ (line.length ≤ limit → readUntil limit input = (line,rest)) ∧
      (limit < line.length → (readUntil limit input).1.length = limit) := by
  induction input generalizing limit with
  | nil => exact absurd rfl some
  | cons b reader ih =>
    by_cases ends : b = LIST_SEPARATOR
    · refine ⟨[b],reader,by simp [listedLines,ends],rfl,by simp,?_,?_⟩
      · intro fits
        cases limit with
        | zero => cases fits
        | succ limit => simp [readUntil,ends]
      · intro short
        have zero : limit = 0 := by simpa using short
        simp [zero,readUntil]
    · by_cases last : reader = []
      · subst last
        refine ⟨[b],[],by simp [listedLines,ends],rfl,by simp,?_,?_⟩
        · intro fits
          cases limit with
          | zero => cases fits
          | succ limit =>
            have none : readUntil limit [] = ([],[]) := by cases limit <;> rfl
            simp [readUntil,ends,none]
        · intro short
          have zero : limit = 0 := by simpa using short
          simp [zero,readUntil]
      · cases limit with
        | zero =>
          obtain ⟨line,rest,lines,whole,filled,_,_⟩ := ih 0 last
          refine ⟨b :: line,rest,by simp [listedLines,ends,lines],by rw [whole]; rfl,by simp,?_,fun _ => rfl⟩
          intro fits
          cases fits
        | succ limit =>
          obtain ⟨line,rest,lines,whole,filled,fits,cut⟩ := ih limit last
          refine ⟨b :: line,rest,by simp [listedLines,ends,lines],by rw [whole]; rfl,by simp,?_,?_⟩
          · intro room
            simp [readUntil,ends,fits (Nat.le_of_succ_le_succ room)]
          · intro beyond
            simp [readUntil,ends,cut (Nat.lt_of_succ_lt_succ beyond)]

theorem archiveLine_long (long : linebuf.length ≥ PATH_MAX) (a : Archive) :
    (archiveLine fs linebuf).run a = (.error ⟨.invalidInput,"path too long"⟩,a) := by
  have refuses : listedCall fs a.state linebuf = .error ⟨.invalidInput,"path too long"⟩ := if_pos long
  rw [archiveLine_run,refuses]

-- A line is read whole or refused, so none is taken for two.
theorem readLoop_lines (fs : FileSystem) (enough : input.length < fuel) (a : Archive) :
    (readLoop fs fuel input).run a = (Eff.forEach (archiveLine fs) (listedLines input)).run a := by
  induction fuel generalizing input a with
  | zero => cases enough
  | succ fuel ih =>
    unfold readLoop
    by_cases empty : input = []
    · subst empty
      rfl
    · obtain ⟨line,rest,lines,whole,filled,fits,cut⟩ := readUntil_line PATH_MAX empty
      rw [lines,Eff.forEach]
      by_cases long : line.length ≥ PATH_MAX
      · have full : (readUntil PATH_MAX input).1.length = PATH_MAX := by
          rcases Nat.lt_or_eq_of_le long with beyond | exactly
          · exact cut beyond
          · rw [fits (Nat.le_of_eq exactly.symm)]
            exact exactly.symm
        have some : (readUntil PATH_MAX input).1.length ≠ 0 := by
          rw [full]
          decide
        dsimp only
        rw [if_neg some,Eff.bind_run_error (archiveLine_long (Nat.le_of_eq full.symm) a),Eff.bind_run_error (archiveLine_long long a)]
      · have some : line.length ≠ 0 := by simpa using filled
        rw [fits (Nat.le_of_not_le long)]
        dsimp only
        rw [if_neg some,Eff.bind_run,Eff.bind_run]
        cases (archiveLine fs line).run a with
        | mk result middle =>
          cases result with
          | error e => rfl
          | ok _ =>
            have size := congrArg List.length whole
            rw [List.length_append] at size
            exact ih (by omega) middle

theorem archiveReader_eq (fs : FileSystem) (props : ArchiveProperties) (input : List UInt8) :
    archiveReader fs props input = archiveLoop fs props input := by
  unfold archiveReader archiveLoop
  rw [Eff.bind_run,Eff.bind_run,readLoop_lines fs (Nat.lt_succ_self _)]

-- The lines that are not empty, without their separators.
def listedPaths (lines : List (List UInt8)) : List Path := (lines.map listedPath).filter (· ≠ [])

-- What the walker compares and a reader prints.
def shownName (e : Entry) : List UInt8 := e.name.take (e.name.length - 1)

-- The entries of these paths, one for each.
structure StandFor (entries : List Entry) (paths : List Path) : Prop where
  names : paths.map pathTrimPrefixes = entries.map fun e => .ok (shownName e)
  narrow : ∀ e ∈ entries, e.name.length ≤ PATH_MAX + 1

theorem StandFor.append (first : StandFor entries paths) (second : StandFor more others) :
    StandFor (entries ++ more) (paths ++ others) := by
  refine ⟨by rw [List.map_append,first.names,second.names,List.map_append],fun e member => ?_⟩
  rcases List.mem_append.mp member with left | right
  · exact first.narrow e left
  · exact second.narrow e right

variable {props : ArchiveProperties}

theorem pathCall_target (made : pathCall fs state path = .ok call) : call.target = path ∧ call ≠ .trailer := by
  have called := pathCall_called fs state path
  rw [made] at called
  cases called with
  | file => exact ⟨rfl,nofun⟩
  | symlink => exact ⟨rfl,nofun⟩
  | other => exact ⟨rfl,nofun⟩

-- Without an alignment nothing stands between a name and its terminator.
theorem described_plain (plain : props.dataAlign = 0) (body : call ≠ .trailer) (described : Describes props written ino call e) :
    pathTrimPrefixes call.target = .ok (shownName e) ∧ e.name.length ≤ PATH_MAX + 1 := by
  have single : ∀ fname, pathTrimPrefixes call.target = .ok fname → e.name = fname ++ zeros 1 →
      pathTrimPrefixes call.target = .ok (shownName e) ∧ e.name.length ≤ PATH_MAX + 1 := by
    intro fname trimmed named
    have short := trim_short trimmed
    have shape : shownName e = fname := by simp [shownName,named]
    refine ⟨by rw [shape,trimmed],?_⟩
    rw [named,List.length_append,length_zeros]
    omega
  cases call with
  | trailer => exact absurd rfl body
  | path p md =>
    obtain ⟨_,_,fname,trimmed,named⟩ := described
    exact single fname trimmed named
  | symlink p md tgt =>
    obtain ⟨_,_,_,fname,trimmed,named⟩ := described
    exact single fname trimmed named
  | file p md data =>
    obtain ⟨_,_,_,fname,seek,trimmed,sought,named⟩ := described
    have unwanted : ¬(props.dataAlign > 0 ∧ md.len > props.dataAlign) := by
      rw [plain]
      exact fun both => absurd both.1 (by decide)
    rw [seek_unwanted unwanted] at sought
    cases sought
    exact single fname trimmed named

-- One line: nothing for an empty one, else the entry of its path.
theorem archiveLine_wrote (ready : Aligned props) (plain : props.dataAlign = 0) (aligned : out.length % 4 = 0)
    (ran : (archiveLine fs line).run (synced props ino out) = (.ok (),after)) :
    ∃ entries ino', StandFor entries (listedPaths [line]) ∧ after = synced props ino' (out ++ entries.flatMap Entry.encode) := by
  rw [archiveLine_run] at ran
  split at ran
  · cases ran
  · rename_i listed
    cases ran
    have known := listedCall_listed fs (synced props ino out).state line
    rw [listed] at known
    cases known with
    | empty blank => exact ⟨[],ino,⟨by simp [listedPaths,blank],nofun⟩,by simp⟩
  · rename_i call listed
    have known := listedCall_listed fs (synced props ino out).state line
    rw [listed] at known
    obtain ⟨filled,called⟩ : listedPath line ≠ [] ∧ pathCall fs (synced props ino out).state (listedPath line) = .ok call := by
      cases known with
      | made filled called => exact ⟨filled,called⟩
    obtain ⟨target,body⟩ := pathCall_target called
    have outcome : Outcome props ino out call _ := call_outcome ready.lands aligned call
    rw [ran] at outcome
    cases outcome with
    | wrote _ entry described =>
      obtain ⟨named,narrow⟩ := described_plain plain body described
      rw [target] at named
      refine ⟨[entry],call.nextIno ino,⟨by simp [listedPaths,filled,named],?_⟩,by simp⟩
      intro e member
      rw [List.mem_singleton.mp member]
      exact narrow

theorem listedPaths_cons (line : List UInt8) (lines : List (List UInt8)) :
    listedPaths (line :: lines) = listedPaths [line] ++ listedPaths lines := by
  unfold listedPaths
  rw [← List.filter_append]
  rfl

theorem encoded_aligned (entries : List Entry) : (entries.flatMap Entry.encode).length % 4 = 0 := by
  induction entries with
  | nil => rfl
  | cons e entries ih =>
    have whole := e.encode_aligned
    rw [List.flatMap_cons,List.length_append]
    omega

theorem archiveLines_wrote (ready : Aligned props) (plain : props.dataAlign = 0) (aligned : out.length % 4 = 0)
    (ran : (Eff.forEach (archiveLine fs) lines).run (synced props ino out) = (.ok (),after)) :
    ∃ entries ino', StandFor entries (listedPaths lines) ∧ after = synced props ino' (out ++ entries.flatMap Entry.encode) := by
  induction lines generalizing ino out with
  | nil =>
    cases ran
    exact ⟨[],ino,⟨rfl,nofun⟩,by simp⟩
  | cons line lines ih =>
    obtain ⟨_,middle,one,later⟩ := Eff.bind_ok.mp ran
    obtain ⟨here,ino',first,rfl⟩ := archiveLine_wrote ready plain aligned one
    have whole := encoded_aligned here
    obtain ⟨rest,ino'',others,equal⟩ := ih (by rw [List.length_append]; omega) later
    refine ⟨here ++ rest,ino'',?_,by rw [equal]; simp⟩
    rw [listedPaths_cons]
    exact first.append others

-- Trailer and zeros to the end of the block.
def archiveTail (written : Nat) : List UInt8 := trailerEntry.encode ++ zeros (padTo 512 (written + trailerEntry.encode.length))

theorem archiveTail_fills (written : Nat) : (written + (archiveTail written).length) % 512 = 0 := by
  have lands := padTo_lands (show 0 < 512 by decide) (written + trailerEntry.encode.length)
  rw [archiveTail,List.length_append,length_zeros,← Nat.add_assoc]
  exact lands

theorem padlen_block (n : Nat) : archivePadlen (.ofNat n) 512 = .ofNat (padTo 512 n) := by
  have power : (512 : UInt64).toNat = 2^9 := rfl
  rw [← UInt64.ofNat_toNat (x:=archivePadlen (.ofNat n) 512),padlen_power power,power]
  congr 1
  apply padTo_congr
  rw [UInt64.toNat_ofNat']
  omega

theorem archiveEnd_synced (props : ArchiveProperties) (ino : UInt32) (aligned : out.length % 4 = 0) : ∃ state,
    archiveEnd.run (synced props ino out) =
      (.ok (.ofNat (out ++ archiveTail out.length).length),⟨state,out ++ archiveTail out.length⟩) := by
  have small : padTo 512 (out.length + trailerEntry.encode.length) < 512 := Nat.mod_lt _ (by decide)
  have narrow : (UInt64.ofNat (padTo 512 (out.length + trailerEntry.encode.length))).toNat =
      padTo 512 (out.length + trailerEntry.encode.length) := by
    rw [UInt64.toNat_ofNat']
    omega
  unfold archiveEnd
  rw [Eff.bind_run_ok (archiveTrailer_synced aligned),List.length_append]
  dsimp only
  rw [padlen_block]
  by_cases padded : UInt64.ofNat (padTo 512 (out.length + trailerEntry.encode.length)) > 0
  · rw [if_pos padded,narrow]
    refine ⟨(synced props ino (out ++ trailerEntry.encode)).state,?_⟩
    simp only [writeAll,Eff.update_bind_run,Eff.pure_run,synced,archiveTail,List.append_assoc,List.length_append,length_zeros,
      UInt64.ofNat_add,UInt64.add_assoc]
  · have none : padTo 512 (out.length + trailerEntry.encode.length) = 0 := by
      rw [← narrow]
      exact Nat.le_zero.mp (Nat.le_of_not_lt padded)
    rw [if_neg padded]
    refine ⟨(synced props ino (out ++ trailerEntry.encode)).state,?_⟩
    simp only [Eff.pure_run,archiveTail,none]
    simp [synced,zeros]

-- What the host answers with.
def FsError (fs : FileSystem) (e : IoError) : Prop :=
  ∃ p, fs.symlinkMetadata p = .error e ∨ fs.fileOpen p = .error e ∨ fs.readLink p = .error e

def Honest (fs : FileSystem) (e : IoError) : Prop := FsError fs e ∨ e.kind = .invalidInput ∨ e.kind = .unexpectedEof

theorem pathCall_honest (failed : pathCall fs state path = .error e) : Honest fs e := by
  have called := pathCall_called fs state path
  rw [failed] at called
  cases called with
  | unknown found => exact .inl ⟨path,.inl found⟩
  | refused made => exact .inr (.inl (fromMetadata_rejects made))
  | unopened opened => exact .inl ⟨path,.inr (.inl opened)⟩
  | unread opened => exact .inl ⟨path,.inr (.inr opened)⟩

theorem listedCall_honest (failed : listedCall fs state line = .error e) : Honest fs e := by
  have known := listedCall_listed fs state line
  rw [failed] at known
  cases known with
  | long => exact .inr (.inl rfl)
  | failed called => exact pathCall_honest called

theorem archiveLine_honest (ready : SeekLands props) (fs : FileSystem) (line : List UInt8) :
    Eff.Triple (InStep props) (archiveLine fs line) (fun _ => InStep props) fun e _ => Honest fs e where
  ok := fun _ _ _ start ran => archiveLine_inStep ready start ran
  error := by
    intro before e after start ran
    obtain ⟨ino,out,rfl,aligned⟩ := start
    rw [archiveLine_run] at ran
    split at ran
    · rename_i listed
      cases ran
      exact listedCall_honest listed
    · cases ran
    · rename_i call _
      have outcome : Outcome props ino out call _ := call_outcome ready aligned call
      rw [ran] at outcome
      cases outcome with
      | rejected _ kind => exact .inr (.inl kind)
      | short _ _ kind => exact .inr (.inr kind)

-- A line that fills PATH_MAX ends the run, if none before it does.
theorem archiveLines_long (fs : FileSystem) (long : ∃ line ∈ lines, line.length ≥ PATH_MAX) (a : Archive) :
    ∃ e after, (Eff.forEach (archiveLine fs) lines).run a = (.error e,after) := by
  cases ran : (Eff.forEach (archiveLine fs) lines).run a with
  | mk result after =>
    cases result with
    | error e => exact ⟨e,after,rfl⟩
    | ok _ =>
      obtain ⟨line,inside,length⟩ := long
      obtain ⟨front,back,rfl⟩ := List.append_of_mem inside
      rw [Eff.forEach_append] at ran
      obtain ⟨_,middle,_,later⟩ := Eff.bind_ok.mp ran
      obtain ⟨_,_,here,_⟩ := Eff.bind_ok.mp later
      rw [archiveLine_long length] at here
      cases here

theorem entOf_visible (e : Entry) : (entOf e).visible = shownName e := by
  have sized := namesize_exact e
  unfold ArchiveEnt.visible entOf
  dsimp only
  rw [sized,nameBuffer_take]
  rfl

theorem shown_names (entries : List Entry) : (shown entries).map (fun e => (entOf e).visible) =
    (entries.map shownName).takeWhile (· ≠ trailerName) := by
  rw [List.takeWhile_map]
  simp only [entOf_visible]
  rfl

theorem lines_archived (plain : props.dataAlign = 0) (start : props.initialDataOff = 0) (fs : FileSystem) (input : List UInt8) :
    (∀ n after, archiveReader fs props input = (.ok n,after) →
      n = .ofNat after.out.length ∧ after.out.length % 512 = 0 ∧
      -- no file and no buffer is larger
      (after.out.length < 2^63 → n.toNat = after.out.length ∧ ∃ (fnames : List (List UInt8)) (ents : List ArchiveEnt),
        (listedPaths (listedLines input)).map pathTrimPrefixes = fnames.map .ok ∧
        Lists after.out ents ∧ ents.map ArchiveEnt.visible = fnames.takeWhile (· ≠ trailerName))) ∧
    ((∃ line ∈ listedLines input, line.length ≥ PATH_MAX) →
      ∃ e after, archiveReader fs props input = (.error e,after) ∧ Honest fs e) := by
  have ready : Aligned props := ⟨by rw [start]; rfl,by rw [plain]; rfl⟩
  have accepted : refused props = false := by simp [refused,plain]
  have fresh : Archive.new props = synced props props.initialIno [] := by simp [Archive.new,ArchiveState.new,synced]
  rw [archiveReader_eq]
  unfold archiveLoop
  rw [accepted,fresh]
  refine ⟨?_,?_⟩
  · intro n after ran
    obtain ⟨_,middle,lines,ended⟩ := Eff.bind_ok.mp ran
    obtain ⟨entries,ino,stand,rfl⟩ := archiveLines_wrote ready plain rfl lines
    rw [List.nil_append] at ended
    obtain ⟨state,final⟩ := archiveEnd_synced props ino (encoded_aligned entries)
    rw [final] at ended
    cases ended
    refine ⟨rfl,?_,fun bounded => ⟨?_,entries.map shownName,(shown entries).map entOf,?_,?_,?_⟩⟩
    · rw [List.length_append]
      exact archiveTail_fills _
    · rw [UInt64.toNat_ofNat']
      dsimp only at bounded ⊢
      omega
    · rw [stand.names,List.map_map]
      rfl
    · exact encoded_lists _ entries stand.narrow bounded
    · rw [List.map_map]
      exact shown_names entries
  · intro long
    obtain ⟨e,after,failed⟩ := archiveLines_long fs long (synced props props.initialIno [])
    refine ⟨e,after,Eff.bind_run_error failed,?_⟩
    have honest : Eff.Triple (InStep props) (Eff.forEach (archiveLine fs) (listedLines input)) (fun _ => InStep props)
        fun e _ => Honest fs e := .forEach fun line _ => archiveLine_honest ready.lands fs line
    exact honest.error _ e after ⟨props.initialIno,[],rfl,rfl⟩ failed

-- "bb", an empty line and "./a" without its newline: a file of three bytes and
-- a directory.
def sampleList : List UInt8 := [98,98,10,10,46,47,97]

theorem lines_archived_two : ∃ after, archiveReader (sampleFs 3) {} sampleList = (.ok 512,after) ∧
    ∃ ents, Lists after.out ents ∧ ents.map ArchiveEnt.visible = [[98,98],[97]] := by
  have counted : (archiveReader (sampleFs 3) {} sampleList).1 = .ok 512 := by decide +kernel
  have ran : archiveReader (sampleFs 3) {} sampleList = (.ok 512,(archiveReader (sampleFs 3) {} sampleList).2) :=
    Prod.ext counted rfl
  obtain ⟨_,_,walked⟩ := (lines_archived rfl rfl (sampleFs 3) sampleList).1 _ _ ran
  obtain ⟨_,fnames,ents,trimmed,lists,names⟩ := walked (by decide +kernel)
  have paths : (listedPaths (listedLines sampleList)).map pathTrimPrefixes = [[98,98],[97]].map .ok := by decide +kernel
  rw [paths] at trimmed
  have same : fnames = [[98,98],[97]] := (List.map_injective_iff.mpr (fun _ _ => Except.ok.inj) trimmed).symm
  subst same
  exact ⟨_,ran,ents,lists,names⟩

end Rapido.DracutCpio
