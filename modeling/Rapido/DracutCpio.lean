import Rapido.Host
import Rapido.DataAlignment
import Mathlib.Data.Nat.Prime.Basic
import Mathlib.Data.Nat.Factorization.Basic

-- src/bin/dracut-cpio.rs: an archive of the paths listed on stdin.
namespace Rapido.DracutCpio
open UnixPath Cpio Newc

def LIST_SEPARATOR : UInt8 := 10

-- What successive read_until calls return, each with its separator.
def listedLines : List UInt8 → List (List UInt8)
  | [] => []
  | b :: rest => if b = LIST_SEPARATOR then [b] :: listedLines rest
    else match listedLines rest with
      | [] => [[b]]
      | line :: lines => (b :: line) :: lines

-- A line without its separator, which the last one may lack.
def listedPath (linebuf : List UInt8) : Path := if linebuf.getLast? = some LIST_SEPARATOR then linebuf.dropLast else linebuf

-- The call that a listed path leads to.
def pathCall (fs : FileSystem) (state : ArchiveState) (path : Path) : Except IoError Call := do
  let md ← fs.symlinkMetadata path
  let amd ← ArchiveMd.fromMetadata state md
  if amd.mode &&& S_IFMT = S_IFREG then
    let (_,data) ← fs.fileOpen path
    return .file path amd data
  else if amd.mode &&& S_IFMT = S_IFLNK then
    let tgt ← fs.readLink path
    return .symlink path amd tgt
  else return .path path amd

-- read_until is limited to PATH_MAX bytes, and a line that fills them is
-- refused. An empty line is skipped.
def listedCall (fs : FileSystem) (state : ArchiveState) (linebuf : List UInt8) : Except IoError (Option Call) :=
  if linebuf.length ≥ PATH_MAX then .error ⟨.invalidInput,"path too long"⟩
  else if (listedPath linebuf).length = 0 then .ok none
  else (pathCall fs state (listedPath linebuf)).map some

def archiveLine (fs : FileSystem) (linebuf : List UInt8) : Write Unit := do
  let state ← Eff.read (·.state)
  match ← Eff.ofExcept (listedCall fs state linebuf) with
  | none => pure ()
  | some call => call.run

-- GNU cpio pads the end of an archive out to blocklen with zeros.
def archiveEnd : Write UInt64 := do
  let finalOff ← archiveTrailer
  let blockPadlen := archivePadlen finalOff 512
  if blockPadlen > 0 then do
    writeAll (zeros blockPadlen.toNat)
    return finalOff + blockPadlen
  else return finalOff

-- The check in front of the loop.
def refused (props : ArchiveProperties) : Bool :=
  decide (props.dataAlign > 0 ∧ (props.initialDataOff + props.dataAlign.toUInt64) % 4 ≠ 0)

def archiveLoop (fs : FileSystem) (props : ArchiveProperties) (input : List UInt8) : Except IoError UInt64 × Archive :=
  if refused props then (.error ⟨.invalidInput,"data alignment must be a multiple of 4"⟩,.new props)
  else (do
    Eff.forEach (archiveLine fs) (listedLines input)
    archiveEnd).run (.new props)

-- What main hands to archive_loop: the defaults with the options it was given
-- and the length of the file that is appended to.
def dracutProps (dataAlign : UInt32) (initialDataOff : UInt64) (mtime uid gid : Option UInt32) : ArchiveProperties :=
  {dataAlign,initialDataOff,fixedMtime:=mtime,fixedUid:=uid,fixedGid:=gid}

-- No call of the loop panics, and the data of a large file whose padded name
-- fits starts on data_align.
def Sufficient (fs : FileSystem) (props : ArchiveProperties) (input : List UInt8) : Prop :=
  ∀ front line back before call, listedLines input = front ++ line :: back →
    (Eff.forEach (archiveLine fs) front).run (.new props) = (.ok (),before) →
    listedCall fs before.state line = .ok (some call) →
    (∀ e, (call.run.run before).1 = .error e → e.kind ≠ .panic) ∧
    ∀ path md data fname, call = .file path md data → pathTrimPrefixes path = .ok fname → md.len > props.dataAlign →
      paddedNamesize props before.out.length fname ≤ props.namesizeMax.toNat →
      (props.initialDataOff.toNat + ((archiveFileLead path md).run before).2.out.length) % props.dataAlign.toNat = 0

variable {fs : FileSystem} {props : ArchiveProperties} {line : List UInt8} {call : Call} {before after : Archive}

-- Everything one line can do.
theorem archiveLine_run (fs : FileSystem) (line : List UInt8) (before : Archive) : (archiveLine fs line).run before =
    match listedCall fs before.state line with
    | .error e => (.error e,before)
    | .ok none => (.ok (),before)
    | .ok (some call) => call.run.run before := by
  unfold archiveLine
  rw [Eff.read_bind_run]
  rcases listedCall fs before.state line with e | (_ | call) <;> rfl

-- A listed line does what its call does.
theorem archiveLine_call (listed : listedCall fs before.state line = .ok (some call)) :
    (archiveLine fs line).run before = call.run.run before := by
  rw [archiveLine_run,listed]

-- An error of one of its calls is what archive_loop returns.
theorem archiveLoop_fails (accepted : refused props = false) (lines : listedLines input = front ++ line :: back)
    (ran : (Eff.forEach (archiveLine fs) front).run (.new props) = (.ok (),before))
    (listed : listedCall fs before.state line = .ok (some call)) (failed : call.run.run before = (.error e,after)) :
    archiveLoop fs props input = (.error e,after) := by
  have here : (archiveLine fs line).run before = (.error e,after) := (archiveLine_call listed).trans failed
  have rest : (Eff.forEach (archiveLine fs) (line :: back)).run before = (.error e,after) := Eff.bind_run_error here
  have whole : (Eff.forEach (archiveLine fs) (listedLines input)).run (.new props) = (.error e,after) := by
    rw [lines,Eff.forEach_append,Eff.bind_run_ok ran,rest]
  rw [archiveLoop,accepted]
  exact Eff.bind_run_error whole

def InStep (props : ArchiveProperties) (a : Archive) : Prop := ∃ ino out, a = synced props ino out ∧ out.length % 4 = 0

theorem inStep_new (props : ArchiveProperties) : InStep props (.new props) := ⟨props.initialIno,[],rfl,rfl⟩

theorem archiveLine_inStep (ready : SeekLands props) (start : InStep props before)
    (ran : (archiveLine fs line).run before = (.ok (),after)) : InStep props after := by
  obtain ⟨ino,out,rfl,aligned⟩ := start
  rw [archiveLine_run] at ran
  split at ran
  · cases ran
  · cases ran
    exact ⟨ino,out,rfl,aligned⟩
  · rename_i call _
    have outcome : Outcome props ino out call _ := call_outcome ready aligned call
    rw [ran] at outcome
    cases outcome with
    | wrote _ entry _ =>
      refine ⟨call.nextIno ino,out ++ entry.encode,rfl,?_⟩
      have whole := entry.encode_aligned
      rw [List.length_append]
      omega

theorem archiveLines_inStep (ready : SeekLands props)
    (ran : (Eff.forEach (archiveLine fs) lines).run (.new props) = (.ok (),after)) : InStep props after :=
  Eff.forEach_keeps_ok (fun _ _ _ start ran => archiveLine_inStep ready start ran) (inStep_new props) ran

theorem call_unpanicked (ready : SeekLands props) (start : InStep props before) (call : Call) (e : IoError)
    (failed : (call.run.run before).1 = .error e) : e.kind ≠ .panic := by
  obtain ⟨ino,out,rfl,aligned⟩ := start
  have outcome : Outcome props ino out call _ := call_outcome ready aligned call
  cases result : call.run.run (synced props ino out) with
  | mk value after =>
    rw [result] at outcome failed
    cases outcome with
    | rejected _ kind =>
      cases failed
      simp [kind]
    | wrote => cases failed
    | short _ _ kind =>
      cases failed
      simp [kind]

-- Where pathCall gets its call from, and where its error.
inductive PathCalled (fs : FileSystem) (state : ArchiveState) (path : Path) : Except IoError Call → Prop where
  | unknown (found : fs.symlinkMetadata path = .error e) : PathCalled fs state path (.error e)
  | refused (made : ArchiveMd.fromMetadata state stat = .error e) : PathCalled fs state path (.error e)
  | unopened (opened : fs.fileOpen path = .error e) : PathCalled fs state path (.error e)
  | unread (opened : fs.readLink path = .error e) : PathCalled fs state path (.error e)
  | file (regular : amd.mode &&& S_IFMT = S_IFREG) (data : List UInt8) : PathCalled fs state path (.ok (.file path amd data))
  | symlink (tgt : Path) : PathCalled fs state path (.ok (.symlink path amd tgt))
  | other : PathCalled fs state path (.ok (.path path amd))

theorem pathCall_called (fs : FileSystem) (state : ArchiveState) (path : Path) : PathCalled fs state path (pathCall fs state path) := by
  unfold pathCall
  cases found : fs.symlinkMetadata path with
  | error e => exact .unknown found
  | ok stat =>
    cases made : ArchiveMd.fromMetadata state stat with
    | error e =>
      simp only [made,bind,Except.bind]
      exact .refused made
    | ok amd =>
      simp only [made,bind,Except.bind]
      split
      · rename_i regular
        cases opened : fs.fileOpen path with
        | error e => exact .unopened opened
        | ok pair => exact .file regular pair.2
      · split
        · cases opened : fs.readLink path with
          | error e => exact .unread opened
          | ok tgt => exact .symlink tgt
        · exact .other

-- A line is too long, empty or a path.
inductive Listed (fs : FileSystem) (state : ArchiveState) (line : List UInt8) : Except IoError (Option Call) → Prop where
  | long (fills : line.length ≥ PATH_MAX) : Listed fs state line (.error ⟨.invalidInput,"path too long"⟩)
  | empty (blank : listedPath line = []) : Listed fs state line (.ok none)
  | failed (called : pathCall fs state (listedPath line) = .error e) : Listed fs state line (.error e)
  | made {call : Call} (filled : listedPath line ≠ []) (called : pathCall fs state (listedPath line) = .ok call) :
      Listed fs state line (.ok (some call))

theorem listedCall_listed (fs : FileSystem) (state : ArchiveState) (line : List UInt8) :
    Listed fs state line (listedCall fs state line) := by
  unfold listedCall
  split
  · rename_i fills
    exact .long fills
  · split
    · rename_i empty
      exact .empty (List.eq_nil_of_length_eq_zero empty)
    · rename_i some
      have filled : listedPath line ≠ [] := fun none => some (by rw [none]; rfl)
      cases called : pathCall fs state (listedPath line) with
      | error e => exact .failed called
      | ok call => exact .made filled called

theorem listedCall_regular (listed : listedCall fs state line = .ok (some (.file path md data))) :
    md.mode &&& S_IFMT = S_IFREG := by
  have known := listedCall_listed fs state line
  rw [listed] at known
  cases known with
  | made _ called =>
    have source := pathCall_called fs state (listedPath line)
    rw [called] at source
    cases source with
    | file regular data => exact regular

theorem refused_off (positive : props.dataAlign > 0) (accepted : refused props = false) :
    (props.initialDataOff.toNat + props.dataAlign.toNat) % 4 = 0 := by
  have wide : props.dataAlign.toUInt64.toNat = props.dataAlign.toNat := UInt32.toNat_toUInt64 _
  have zero : (props.initialDataOff + props.dataAlign.toUInt64) % 4 = 0 := by
    simpa [refused,positive] using accepted
  have count := congrArg UInt64.toNat zero
  rw [UInt64.toNat_mod,UInt64.toNat_add,wide] at count
  change (props.initialDataOff.toNat + props.dataAlign.toNat) % 2^64 % 4 = 0 at count
  omega

-- The alignments for which the check in front of the loop is enough.
def goodAlign (dataAlign : UInt32) : Prop :=
  dataAlign = 1 ∨ (∃ k, 2 ≤ k ∧ dataAlign.toNat = 2^k) ∨ dataAlign.toNat = 2^32 - 1

theorem seek_unwanted (unwanted : ¬(props.dataAlign > 0 ∧ md.len > props.dataAlign)) (written : Nat) (ino : UInt32) (fname : List UInt8) :
    dataAlignSeek ⟨props,.ofNat written,ino⟩ md fname = .ok 0 := if_neg unwanted

theorem seek_padless (none : archivePadlen (nameEnd props written fname) props.dataAlign.toUInt64 = 0) (md : ArchiveMd) (ino : UInt32) :
    dataAlignSeek ⟨props,.ofNat written,ino⟩ md fname = .ok 0 := by
  by_cases wanted : props.dataAlign > 0 ∧ md.len > props.dataAlign
  · have position : props.initialDataOff + .ofNat written + .ofNat NEWC_HDR_LEN + .ofNat fname.length + 1 =
      nameEnd props written fname := rfl
    unfold dataAlignSeek
    dsimp only
    rw [if_pos wanted,position,none]
    split <;> rfl
  · exact seek_unwanted wanted written ino fname

theorem padlen_one (single : props.dataAlign = 1) (off : UInt64) : archivePadlen off props.dataAlign.toUInt64 = 0 := by
  have below := padlen_lt (show 0 < props.dataAlign.toUInt64.toNat by rw [single]; decide) off
  apply UInt64.toNat_inj.mp
  rw [single] at below ⊢
  exact Nat.lt_one_iff.mp below

theorem goodAlign_lands (positive : props.dataAlign > 0) (accepted : refused props = false) (good : goodAlign props.dataAlign) :
    SeekLands props := by
  have sum := refused_off positive accepted
  have zero : ¬((0 : UInt32) > 0) := by decide
  rcases good with one | ⟨k,two,power⟩ | most
  · intro written fname md ino _ _
    exact ⟨0,seek_padless (padlen_one one _) md ino,fun some => absurd some zero⟩
  · have multiple : props.dataAlign.toNat % 4 = 0 := by
      rw [power]
      exact Nat.mod_eq_zero_of_dvd (Nat.pow_dvd_pow 2 two)
    have ready : Aligned props := ⟨by omega,multiple⟩
    exact ready.lands
  · intro written fname md ino _ _
    refine ⟨0,seek_unwanted ?_ written ino fname,fun some => absurd some zero⟩
    rintro ⟨_,large⟩
    have limit := md.len.toNat_lt
    have count := UInt32.lt_iff_toNat_lt.mp large
    omega

theorem goodAlign_sufficient (positive : props.dataAlign > 0) (accepted : refused props = false)
    (good : goodAlign props.dataAlign) (fs : FileSystem) (input : List UInt8) : Sufficient fs props input := by
  have ready := goodAlign_lands positive accepted good
  intro front line back before call _ ran listed
  have start := archiveLines_inStep ready ran
  refine ⟨call_unpanicked ready start call,?_⟩
  rintro path md data fname rfl trimmed large fits
  obtain ⟨ino,out,rfl,aligned⟩ := start
  change paddedNamesize props out.length fname ≤ _ at fits
  obtain ⟨namesize,led,_,named,narrow,value⟩ := lead_placed ready aligned trimmed (listedCall_regular listed) positive large ino
  rw [led]
  change (_ + (out ++ fileLead ino md fname namesize).length) % _ = 0
  rw [List.length_append,length_fileLead narrow named,← Nat.add_assoc props.initialDataOff.toNat]
  rcases good with one | ⟨k,two,power⟩ | most
  · rw [one]
    exact Nat.mod_one _
  · have sum := refused_off positive accepted
    have multiple : props.dataAlign.toNat % 4 = 0 := by
      rw [power]
      exact Nat.mod_eq_zero_of_dvd (Nat.pow_dvd_pow 2 two)
    rw [if_pos fits,padded_power power] at value
    exact padded_lands ⟨by omega,multiple⟩ (UInt32.lt_iff_toNat_lt.mp positive) aligned value
  · have limit := md.len.toNat_lt
    have count := UInt32.lt_iff_toNat_lt.mp large
    omega

-- What follows builds a list of files for every other alignment.

def listed (path : Path) : List UInt8 := path ++ [LIST_SEPARATOR]

theorem listedLines_listed (clean : LIST_SEPARATOR ∉ path) (rest : List UInt8) :
    listedLines (listed path ++ rest) = listed path :: listedLines rest := by
  unfold listed
  induction path with
  | nil => simp [listedLines]
  | cons b path ih =>
    have other : b ≠ LIST_SEPARATOR := fun same => clean (by simp [same])
    have tail := ih fun member => clean (List.mem_cons_of_mem _ member)
    simp only [List.cons_append,listedLines,if_neg other]
    rw [tail]

theorem listedLines_all (paths : List Path) (clean : ∀ path ∈ paths, LIST_SEPARATOR ∉ path) :
    listedLines (paths.map listed).flatten = paths.map listed := by
  induction paths with
  | nil => rfl
  | cons path paths ih =>
    rw [List.map_cons,List.flatten_cons,listedLines_listed (clean path List.mem_cons_self),
      ih fun path member => clean path (List.mem_cons_of_mem _ member)]

theorem listedCall_path (short : path.length + 1 < PATH_MAX) (named : path ≠ []) (made : pathCall fs state path = .ok call) :
    listedCall fs state (listed path) = .ok (some call) := by
  have trimmed : listedPath (listed path) = path := by simp [listedPath,listed]
  have filled : path.length ≠ 0 := by simpa using named
  have size : (listed path).length = path.length + 1 := by simp [listed]
  rw [listedCall,if_neg (by omega),trimmed,if_neg filled,made]
  rfl

-- Names of the letters a and b: directories and files of one size.
def sampleDir : Metadata := ⟨0o040755,0,0,2,0,0,0⟩
def sampleFile (len : UInt32) : Metadata := ⟨0o100644,0,0,1,0,0,len.toUInt64⟩

def sampleFs (len : UInt32) : FileSystem where
  cwd := [slash]
  symlinkMetadata := fun p => .ok (if p.head? = some 98 then sampleFile len else sampleDir)
  fileOpen := fun _ => .ok (sampleFile len,zeros len.toNat)
  readDir := fun _ => .error (.ofKind .notFound)
  readLink := fun _ => .error (.ofKind .notFound)
  canonicalize := fun _ => .error (.ofKind .notFound)
  pathExists := fun _ => true
  cwd_absolute := root_absolute
  readDir_names := @lists_nothing
  canonicalize_absolute := @resolves_nothing

def dirNamed (n : Nat) : Path := List.replicate (n+1) 97
def fileNamed (n : Nat) : Path := List.replicate (n+1) 98

theorem trim_relative (first : path.head? = some b) (other : b ≠ slash) (visible : b ≠ dot) (short : path.length + 1 < PATH_MAX) :
    pathTrimPrefixes path = .ok path := by
  have closed : (isAbsolute path || includeCurDir path) = false := by
    obtain ⟨rest,rfl⟩ := List.head?_eq_some_iff.mp first
    cases rest <;> simp [isAbsolute,includeCurDir,other,visible]
  have name : trimmedName path = path := by simp [trimmedName_eq,closed]
  rw [pathTrimPrefixes,name,if_neg (by omega)]

-- The metadata that is archived for them, whatever is fixed by the options.
def dirMd (props : ArchiveProperties) : ArchiveMd :=
  ⟨2,0o040755,props.fixedUid.getD 0,props.fixedGid.getD 0,props.fixedMtime.getD 0,0,0,0⟩
def fileMd (props : ArchiveProperties) (len : UInt32) : ArchiveMd :=
  ⟨1,0o100644,props.fixedUid.getD 0,props.fixedGid.getD 0,props.fixedMtime.getD 0,0,0,len⟩

theorem sampleDir_md (state : ArchiveState) : ArchiveMd.fromMetadata state sampleDir = .ok (dirMd state.props) := by
  unfold ArchiveMd.fromMetadata dirMd
  cases state.props.fixedMtime <;> rfl

theorem sampleFile_md (state : ArchiveState) (len : UInt32) :
    ArchiveMd.fromMetadata state (sampleFile len) = .ok (fileMd state.props len) := by
  have fits : decide ((sampleFile len).len.toNat < 2^32) = true := by
    have limit := len.toNat_lt
    simpa [sampleFile] using limit
  have narrow : (sampleFile len).len.toUInt32 = len := by
    simp [sampleFile]
  have kind : (sampleFile len).mode &&& S_IFMT = S_IFREG := by
    change (0o100644 : UInt32) &&& S_IFMT = S_IFREG
    decide
  have device : ¬(S_IFREG = S_IFBLK ∨ S_IFREG = S_IFCHR) := by decide
  unfold ArchiveMd.fromMetadata fileMd
  simp only [fits,narrow,kind,if_neg device,if_true]
  cases state.props.fixedMtime <;> rfl

theorem dir_call (state : ArchiveState) (len : UInt32) (n : Nat) :
    pathCall (sampleFs len) state (dirNamed n) = .ok (.path (dirNamed n) (dirMd state.props)) := by
  have found : (sampleFs len).symlinkMetadata (dirNamed n) = .ok sampleDir := by simp [sampleFs,dirNamed,List.replicate_succ]
  have other : ¬(dirMd state.props).mode &&& S_IFMT = S_IFREG := by
    change ¬(0o040755 : UInt32) &&& S_IFMT = S_IFREG
    decide
  have unlinked : ¬(dirMd state.props).mode &&& S_IFMT = S_IFLNK := by
    change ¬(0o040755 : UInt32) &&& S_IFMT = S_IFLNK
    decide
  simp only [pathCall,found,bind,Except.bind,sampleDir_md,if_neg other,if_neg unlinked]
  rfl

theorem file_call (state : ArchiveState) (len : UInt32) (n : Nat) :
    pathCall (sampleFs len) state (fileNamed n) = .ok (.file (fileNamed n) (fileMd state.props len) (zeros len.toNat)) := by
  have found : (sampleFs len).symlinkMetadata (fileNamed n) = .ok (sampleFile len) := by
    simp [sampleFs,fileNamed,List.replicate_succ]
  have regular : (fileMd state.props len).mode &&& S_IFMT = S_IFREG := by
    change (0o100644 : UInt32) &&& S_IFMT = S_IFREG
    decide
  simp only [pathCall,found,bind,Except.bind,sampleFile_md,if_pos regular]
  rfl

variable {ino : UInt32} {out : List UInt8} {n : Nat}

theorem dir_name (small : n < 4000) : pathTrimPrefixes (dirNamed n) = .ok (dirNamed n) := by
  have short : (dirNamed n).length + 1 < PATH_MAX := by
    simp only [dirNamed,List.length_replicate,PATH_MAX]
    omega
  have first : (dirNamed n).head? = some 97 := by simp [dirNamed,List.replicate_succ]
  exact trim_relative first (by decide) (by decide) short

theorem file_name (small : n < 4000) : pathTrimPrefixes (fileNamed n) = .ok (fileNamed n) := by
  have short : (fileNamed n).length + 1 < PATH_MAX := by
    simp only [fileNamed,List.length_replicate,PATH_MAX]
    omega
  have first : (fileNamed n).head? = some 98 := by simp [fileNamed,List.replicate_succ]
  exact trim_relative first (by decide) (by decide) short

-- A directory's entry is its header, its name and the padding.
theorem dir_run (props : ArchiveProperties) (ino : UInt32) (aligned : out.length % 4 = 0) (small : n < 4000) (len : UInt32) :
    ∃ entry, (archiveLine (sampleFs len) (listed (dirNamed n))).run (synced props ino out) =
        (.ok (),synced props (ino+1) (out ++ entry)) ∧ entry.length = 112 + n + pad4 (112 + n) := by
  have short : (dirNamed n).length + 1 < PATH_MAX := by
    simp only [dirNamed,List.length_replicate,PATH_MAX]
    omega
  have named := listedCall_path short (by simp [dirNamed]) (dir_call (synced props ino out).state len n)
  have other : ¬(Call.path (dirNamed n) (dirMd props)).Rejects := by
    rintro (⟨e,failed⟩ | ⟨_,filled⟩ | link)
    · rw [dir_name small] at failed
      cases failed
    · revert filled
      change ¬(0 : UInt32) > 0
      decide
    · revert link
      change ¬(0o040755 : UInt32) &&& S_IFMT = S_IFLNK
      decide
  have outcome : Outcome props ino out (.path (dirNamed n) (dirMd props)) _ := path_outcome aligned (dirNamed n) (dirMd props)
  rw [archiveLine_call named]
  change ∃ entry, (archivePath (dirNamed n) (dirMd props)).run (synced props ino out) = _ ∧ _
  generalize (archivePath (dirNamed n) (dirMd props)).run (synced props ino out) = result at outcome
  cases outcome with
  | rejected checked => exact absurd checked other
  | short _ cut => cases cut
  | wrote _ entry described =>
    obtain ⟨_,md,fname,trimmed,name⟩ := described
    rw [dir_name small] at trimmed
    cases trimmed
    have empty : entry.data = [] := by
      apply List.eq_nil_of_length_eq_zero
      rw [entry.sized,md]
      rfl
    have width : entry.name.length = n + 2 := by simp [name,dirNamed]
    refine ⟨entry.encode,rfl,?_⟩
    simp only [Entry.encode,List.length_append,entry.length_header,length_zeros,width,empty,List.length_nil,NEWC_HDR_LEN]
    have whole : 110 + (n + 2) = 112 + n := by omega
    have none : pad4 0 = 0 := rfl
    rw [whole,none]
    omega

theorem dirs_run (props : ArchiveProperties) (len : UInt32) (names : List Nat) (small : ∀ n ∈ names, n < 4000) (ino : UInt32)
    (aligned : out.length % 4 = 0) :
    ∃ ino' out', (Eff.forEach (archiveLine (sampleFs len)) (names.map fun n => listed (dirNamed n))).run (synced props ino out) =
        (.ok (),synced props ino' out') ∧ out'.length = out.length + (names.map fun n => 112 + n + pad4 (112 + n)).sum := by
  induction names generalizing ino out with
  | nil => exact ⟨ino,out,rfl,by simp⟩
  | cons n names ih =>
    obtain ⟨entry,ran,size⟩ := dir_run props ino aligned (small n List.mem_cons_self) len
    have landed := pad4_aligns (112 + n)
    have whole : (out ++ entry).length % 4 = 0 := by
      rw [List.length_append]
      omega
    obtain ⟨ino',out',rest,total⟩ := ih (fun n member => small n (List.mem_cons_of_mem _ member)) (ino+1) whole
    refine ⟨ino',out',?_,?_⟩
    · rw [List.map_cons,Eff.forEach,Eff.bind_run_ok ran,rest]
    · rw [total,List.length_append,size,List.map_cons,List.sum_cons]
      omega

-- Directories can bring an archive to any offset from 112 on.
theorem offset_reached (props : ArchiveProperties) (len : UInt32) (least : 112 ≤ off) (aligned : off % 4 = 0) :
    ∃ (names : List Nat) (ino : UInt32) (out : List UInt8), (∀ n ∈ names, n < 4000) ∧ (Eff.forEach (archiveLine (sampleFs len)) (names.map fun n => listed (dirNamed n))).run
      (.new props) = (.ok (),synced props ino out) ∧ out.length = off := by
  -- all but the last take 112 bytes, the last one the rest
  have small : ∀ n ∈ List.replicate (off / 112 - 1) 0 ++ [off % 112], n < 4000 := by
    intro n member
    rcases List.mem_append.mp member with many | last
    · rw [List.eq_of_mem_replicate many]
      decide
    · rw [List.mem_singleton.mp last]
      omega
  have start : ([] : List UInt8).length % 4 = 0 := rfl
  obtain ⟨ino,out,ran,size⟩ := dirs_run props len (List.replicate (off / 112 - 1) 0 ++ [off % 112]) small props.initialIno start
  refine ⟨_,ino,out,small,ran,?_⟩
  have first : pad4 (112 + 0) = 0 := rfl
  have last : pad4 (112 + off % 112) = 0 := pad4_zero (by omega)
  rw [size]
  simp only [List.map_append,List.map_replicate,List.map_cons,List.map_nil,List.sum_append,List.sum_replicate,first,last,
    List.sum_cons,List.sum_nil,List.length_nil,smul_eq_mul]
  omega

-- A listing of directories up to an offset, and then a file.
theorem sufficient_file (all : ∀ fs input, Sufficient fs props input) (len : UInt32) (small : n < 4000) (least : 112 ≤ off)
    (aligned : off % 4 = 0) : ∃ ino out, out.length = off ∧
      (∀ e, ((archiveFile (fileNamed n) (fileMd props len) (zeros len.toNat)).run (synced props ino out)).1 = .error e →
        e.kind ≠ .panic) ∧
      (len > props.dataAlign → paddedNamesize props off (fileNamed n) ≤ props.namesizeMax.toNat →
        (props.initialDataOff.toNat + ((archiveFileLead (fileNamed n) (fileMd props len)).run (synced props ino out)).2.out.length) %
          props.dataAlign.toNat = 0) := by
  obtain ⟨names,ino,out,narrow,ran,size⟩ := offset_reached props len least aligned
  have clean : ∀ path ∈ names.map dirNamed ++ [fileNamed n], LIST_SEPARATOR ∉ path := by
    intro path member separator
    rcases List.mem_append.mp member with dir | file
    · obtain ⟨m,_,rfl⟩ := List.mem_map.mp dir
      exact absurd (List.eq_of_mem_replicate separator) (by decide)
    · rw [List.mem_singleton.mp file] at separator
      exact absurd (List.eq_of_mem_replicate separator) (by decide)
  have lines := listedLines_all _ clean
  simp only [List.map_append,List.map_map,List.map_cons,List.map_nil] at lines
  have short : (fileNamed n).length + 1 < PATH_MAX := by
    simp only [fileNamed,List.length_replicate,PATH_MAX]
    omega
  have named := listedCall_path short (by simp [fileNamed]) (file_call (synced props ino out).state len n)
  obtain ⟨calm,placed⟩ := all (sampleFs len) _ _ _ _ _ _ lines ran named
  refine ⟨ino,out,size,calm,fun large fits => ?_⟩
  exact placed _ _ _ _ rfl (file_name small) large (by rw [← size] at fits; exact fits)

theorem masked_none {x y : UInt64} (high : x.toNat % 2^32 = 0) (low : y.toNat < 2^32) : x &&& y = 0 := by
  apply UInt64.toNat_inj.mp
  have bound : x.toNat &&& y.toNat ≤ y.toNat := Nat.and_le_right
  have none : (x.toNat &&& y.toNat) % 2^32 = 0 := by rw [Nat.and_mod_two_pow,high,Nat.zero_and]
  rw [UInt64.toNat_and]
  rw [Nat.mod_eq_of_lt (by omega)] at none
  exact none

-- Where the name ends on a multiple of 2^32 the mask hides every remainder.
theorem padlen_high (positive : props.dataAlign > 0)
    (high : (props.initialDataOff.toNat + written + NEWC_HDR_LEN + fname.length + 1) % 2^32 = 0) :
    archivePadlen (nameEnd props written fname) props.dataAlign.toUInt64 = 0 := by
  have wide : props.dataAlign.toUInt64.toNat = props.dataAlign.toNat := UInt32.toNat_toUInt64 _
  have limit := props.dataAlign.toNat_lt
  have some : 0 < props.dataAlign.toNat := UInt32.lt_iff_toNat_lt.mp positive
  have pred : (props.dataAlign.toUInt64 - 1).toNat = props.dataAlign.toNat - 1 := by
    rw [UInt64.toNat_sub_of_le _ _ (by rw [UInt64.le_iff_toNat_le,wide]; exact some),wide]
    rfl
  have masked : nameEnd props written fname &&& (props.dataAlign.toUInt64 - 1) = 0 :=
    masked_none (by rw [nameEnd_mod (by decide),high]) (by omega)
  apply UInt64.toNat_inj.mp
  unfold archivePadlen
  rw [masked,UInt64.sub_zero,UInt64.toNat_mod,Nat.mod_self]
  rfl

theorem lead_unpadded (aligned : out.length % 4 = 0) (positive : props.dataAlign > 0) (small : n < 4000) (len : UInt32)
    (high : (props.initialDataOff.toNat + out.length + 112 + n) % 2^32 = 0) (ino : UInt32) :
    ((archiveFileLead (fileNamed n) (fileMd props len)).run (synced props ino out)).2.out.length =
      out.length + 112 + n + pad4 (112 + n) := by
  have width : (fileNamed n).length = n + 1 := by simp [fileNamed]
  have none : archivePadlen (nameEnd props out.length (fileNamed n)) props.dataAlign.toUInt64 = 0 := by
    apply padlen_high positive
    rw [width,← high]
    congr 1
    simp only [NEWC_HDR_LEN]
    omega
  have regular : (fileMd props len).mode &&& S_IFMT = S_IFREG := by
    change (0o100644 : UInt32) &&& S_IFMT = S_IFREG
    decide
  have zero : (0 : UInt32).toNat = 0 := rfl
  have narrow : (fileNamed n).length + 1 + (0 : UInt32).toNat < 2^32 := by
    rw [width,zero]
    omega
  rw [lead_written aligned (file_name small) regular (seek_padless none _ ino) narrow fun some => absurd some (by decide)]
  have header : (newcHdr ino (fileMd props len) (fileMd props len).len (n + 1 + 1 + 0)).length = 110 :=
    length_newcHdr (by omega)
  simp only [synced,List.length_append,length_zeros,width,zero,header,NEWC_HDR_LEN]
  have whole : 110 + (n + 1 + (1 + 0)) = 112 + n := by omega
  rw [whole]
  omega

-- Two names that end on neighbouring multiples of 2^32 leave only divisors of it.
theorem sufficient_divides (positive : props.dataAlign > 0) (limit : props.dataAlign.toNat + 1 < 2^32)
    (cap : props.namesizeMax = 4096) (all : ∀ fs input, Sufficient fs props input) : props.dataAlign.toNat ∣ 2^32 := by
  let n := pad4 props.initialDataOff.toNat
  have bound : n < 4 := pad4_lt _
  have lands : (props.initialDataOff.toNat + n) % 4 = 0 := pad4_aligns _
  have larger : props.dataAlign + 1 > props.dataAlign := by
    rw [gt_iff_lt,UInt32.lt_iff_toNat_lt,UInt32.toNat_add]
    change _ < (_ + 1) % 2^32
    rw [Nat.mod_eq_of_lt limit]
    omega
  have start : ∀ j, props.initialDataOff.toNat + 224 + n ≤ j * 2^32 →
      (j * 2^32 + pad4 (112 + n)) % props.dataAlign.toNat = 0 := by
    intro j room
    have small : n < 4000 := by omega
    have least : 112 ≤ j * 2^32 - props.initialDataOff.toNat - 112 - n := by omega
    obtain ⟨ino,out,size,_,placed⟩ := sufficient_file all (props.dataAlign + 1) small least (by omega)
    have high : (props.initialDataOff.toNat + out.length + 112 + n) % 2^32 = 0 := by
      rw [size]
      omega
    have none : archivePadlen (nameEnd props out.length (fileNamed n)) props.dataAlign.toUInt64 = 0 := by
      apply padlen_high positive
      rw [← high]
      congr 1
      simp only [NEWC_HDR_LEN,fileNamed,List.length_replicate]
      omega
    have fits : paddedNamesize props out.length (fileNamed n) ≤ props.namesizeMax.toNat := by
      rw [paddedNamesize,none,cap]
      simp only [fileNamed,List.length_replicate]
      change 0 + (n+1) + 1 ≤ 4096
      omega
    rw [← size] at placed
    have aligned := placed larger fits
    rw [lead_unpadded (by omega) positive small _ high ino] at aligned
    have total : props.initialDataOff.toNat + (out.length + 112 + n + pad4 (112 + n)) = j * 2^32 + pad4 (112 + n) := by omega
    rwa [total] at aligned
  have first := start (props.initialDataOff.toNat + 228) (by omega)
  have second := start (props.initialDataOff.toNat + 229) (by omega)
  have gap : (props.initialDataOff.toNat + 229) * 2^32 + pad4 (112 + n) =
      (props.initialDataOff.toNat + 228) * 2^32 + pad4 (112 + n) + 2^32 := by omega
  rw [gap] at second
  exact (Nat.dvd_add_right (Nat.dvd_of_mod_eq_zero first)).mp (Nat.dvd_of_mod_eq_zero second)

theorem lead_panics (aligned : out.length % 4 = 0) (trimmed : pathTrimPrefixes p = .ok fname)
    (kind : md.mode &&& S_IFMT = S_IFREG) (sought : dataAlignSeek ⟨props,.ofNat out.length,ino⟩ md fname = .ok seek)
    (small : fname.length + 1 + seek.toNat < 2^32) (some : seek > 0)
    (misses : (NEWC_HDR_LEN + fname.length + 1 + seek.toNat) % 4 ≠ 0) (data : List UInt8) :
    ((archiveFile p md data).run (synced props ino out)).1 = .error ⟨.panic,"assert_eq!(archive_padlen(..), 0)"⟩ := by
  have header : (newcHdr ino md md.len (fname.length + 1 + seek.toNat)).length = NEWC_HDR_LEN := length_newcHdr small
  have limit := seek.toNat_lt
  have seekLen : 1 + seek.toUInt64 = UInt64.ofNat (1 + seek.toNat) := by
    apply UInt64.toNat_inj.mp
    rw [UInt64.toNat_add,UInt32.toNat_toUInt64,UInt64.toNat_ofNat']
    rfl
  have offBoundary : archivePadlen (UInt64.ofNat (out ++ newcHdr ino md md.len (fname.length + 1 + seek.toNat) ++ fname).length +
      UInt64.ofNat (1 + seek.toNat)) 4 ≠ 0 := by
    rw [← UInt64.ofNat_add,padlen_four]
    intro zero
    have count := congrArg UInt64.toNat zero
    rw [UInt64.toNat_ofNat'] at count
    change _ % 2^64 = 0 at count
    simp only [List.length_append,header] at count
    unfold pad4 at count
    omega
  have failed : (writeFileName fname seek).run (synced props (ino+1) (out ++ newcHdr ino md md.len (fname.length + 1 + seek.toNat))) =
      (.error ⟨.panic,"assert_eq!(archive_padlen(..), 0)"⟩,
        synced props (ino+1) (out ++ newcHdr ino md md.len (fname.length + 1 + seek.toNat) ++ fname)) := by
    unfold writeFileName
    rw [if_pos some,emit_synced rfl]
    simp only [Eff.read_bind_run,synced_off,seekLen,offBoundary,ne_eq,not_false_eq_true,if_true,Eff.fail_run]
  simp only [archiveFile,trimmed,Eff.ofExcept_ok,Eff.pure_bind_run,Eff.read_bind_run,synced_state,kind,ne_eq,
    not_true_eq_false,if_false,sought]
  rw [takeIno_synced,emit_synced (header_count small _ _ _),Eff.bind_run_error failed]

-- An alignment of two asks for a zero that the 4 byte padding then misses.
theorem sufficient_not_two (double : props.dataAlign = 2) (cap : props.namesizeMax = 4096) (accepted : refused props = false) :
    ¬∀ fs input, Sufficient fs props input := by
  intro all
  have positive : props.dataAlign > 0 := by
    rw [double]
    decide
  have two : props.dataAlign.toNat = 2^1 := by
    rw [double]
    rfl
  have sum := refused_off positive accepted
  have width : (fileNamed 1).length = 2 := rfl
  have least : 112 ≤ 112 := le_refl 112
  obtain ⟨ino,out,size,calm,_⟩ := sufficient_file (n := 1) all 3 (by decide) least (by decide)
  have large : (fileMd props 3).len > props.dataAlign := by
    rw [double]
    change (3 : UInt32) > 2
    decide
  have regular : (fileMd props 3).mode &&& S_IFMT = S_IFREG := by
    change (0o100644 : UInt32) &&& S_IFMT = S_IFREG
    decide
  have padded : paddedNamesize props out.length (fileNamed 1) = 4 := by
    rw [padded_power two,two,width,size]
    unfold padTo
    simp only [NEWC_HDR_LEN]
    omega
  have short : (fileNamed 1).length + 1 < PATH_MAX := by decide
  obtain ⟨seek,sought,value⟩ := seek_value positive large short out.length ino
  rw [padded,cap,width] at value
  have one : seek.toNat = 1 := by
    change 2 + 1 + seek.toNat = 4 at value
    omega
  have failed := lead_panics (by omega) (file_name (by decide)) regular sought (by omega) (UInt32.lt_iff_toNat_lt.mpr (by rw [one]; decide))
    (by rw [one,width]; decide) (zeros 3)
  exact calm _ failed rfl

theorem alignment_check (dataAlign : UInt32) (initialDataOff : UInt64) (mtime uid gid : Option UInt32) (positive : dataAlign > 0)
    (accepted : refused (dracutProps dataAlign initialDataOff mtime uid gid) = false) :
    (∀ fs input, Sufficient fs (dracutProps dataAlign initialDataOff mtime uid gid) input) ↔ goodAlign dataAlign := by
  refine ⟨fun all => ?_,fun good fs input => goodAlign_sufficient positive accepted good fs input⟩
  by_cases most : dataAlign.toNat = 2^32 - 1
  · exact .inr (.inr most)
  · have limit : dataAlign.toNat + 1 < 2^32 := by
      have bound := dataAlign.toNat_lt
      omega
    have divides : (dracutProps dataAlign initialDataOff mtime uid gid).dataAlign.toNat ∣ 2^32 :=
      sufficient_divides positive limit rfl all
    obtain ⟨k,_,power⟩ := (Nat.dvd_prime_pow Nat.prime_two).mp divides
    rcases Nat.lt_or_ge k 2 with few | two
    · interval_cases k
      · exact .inl (UInt32.toNat_inj.mp power)
      · have double : dataAlign = 2 := UInt32.toNat_inj.mp power
        exact absurd all (sufficient_not_two double rfl accepted)
    · exact .inr (.inl ⟨k,two,power⟩)

theorem alignment_check_four : refused (dracutProps 4 0 none none none) = false ∧
    Sufficient (sampleFs 13) (dracutProps 4 0 none none none) [98,10] := by
  refine ⟨by decide,?_⟩
  exact (alignment_check 4 0 none none none (by decide) (by decide)).mpr (.inr (.inl ⟨2,by decide,rfl⟩)) _ _

-- The file bb of three bytes behind two bytes trips the assertion, and the data
-- of the file b of 13 bytes starts at 112, which is no multiple of 12.
theorem alignment_check_passes : refused (dracutProps 2 2 none none none) = false ∧
    (archiveLoop (sampleFs 3) (dracutProps 2 2 none none none) [98,98,10]).1 =
      .error ⟨.panic,"assert_eq!(archive_padlen(..), 0)"⟩ ∧
    ¬Sufficient (sampleFs 3) (dracutProps 2 2 none none none) [98,98,10] ∧
    refused (dracutProps 12 0 none none none) = false ∧ ¬Sufficient (sampleFs 13) (dracutProps 12 0 none none none) [98,10] := by
  refine ⟨by decide,by decide +kernel,?_,by decide,?_⟩
  · intro all
    have listed : listedCall (sampleFs 3) (Archive.new (dracutProps 2 2 none none none)).state [98,98,10] =
        .ok (some (.file [98,98] ⟨1,0o100644,0,0,0,0,0,3⟩ (zeros 3))) := by decide +kernel
    have failed : ((archiveFile [98,98] ⟨1,0o100644,0,0,0,0,0,3⟩ (zeros 3)).run (.new (dracutProps 2 2 none none none))).1 =
        .error ⟨.panic,"assert_eq!(archive_padlen(..), 0)"⟩ := by decide +kernel
    exact (all [] [98,98,10] [] _ _ rfl rfl listed).1 _ failed rfl
  · intro all
    have listed : listedCall (sampleFs 13) (Archive.new (dracutProps 12 0 none none none)).state [98,10] =
        .ok (some (.file [98] ⟨1,0o100644,0,0,0,0,0,13⟩ (zeros 13))) := by decide +kernel
    have lands := (all [] [98,10] [] _ _ rfl rfl listed).2 [98] ⟨1,0o100644,0,0,0,0,0,13⟩ (zeros 13) [98] rfl (by decide +kernel)
      (by decide) (by decide +kernel)
    revert lands
    decide +kernel

end Rapido.DracutCpio
