import Rapido.Newc
import Rapido.PathLaws
import Mathlib.Tactic.IntervalCases

namespace Rapido.Cpio
open UnixPath Newc
variable {props : ArchiveProperties} {ino : UInt32} {out hdr fname bytes : List UInt8}

theorem padlen_four (n : Nat) : archivePadlen (.ofNat n) 4 = .ofNat (pad4 n) := by
  have low : (UInt64.ofNat n &&& 3).toNat = n % 4 := by
    rw [UInt64.toNat_and,UInt64.toNat_ofNat']
    change n % 2^64 &&& (2^2-1) = n % 4
    rw [Nat.and_two_pow_sub_one_eq_mod]
    omega
  have small : n % 4 < 4 := Nat.mod_lt _ (by decide)
  apply UInt64.toNat_inj.mp
  unfold archivePadlen pad4
  change ((4 - (UInt64.ofNat n &&& 3)) % 4).toNat = _
  rw [UInt64.toNat_mod,UInt64.toNat_sub_of_le _ _ (by rw [UInt64.le_iff_toNat_le,low]; exact Nat.le_of_lt small),low,
    UInt64.toNat_ofNat']
  change (4 - n % 4) % 4 = _
  omega

-- Any alignment that is itself a multiple of four, powers of two or not.
theorem padlen_aligns (off alignment : UInt64) (positive : 0 < alignment) (multiple : alignment.toNat % 4 = 0) :
    archivePadlen off alignment < alignment ∧ (off.toNat + (archivePadlen off alignment).toNat) % 4 = 0 := by
  have nonzero : 0 < alignment.toNat := positive
  have pred : (alignment - 1).toNat = alignment.toNat - 1 :=
    UInt64.toNat_sub_of_le _ _ (by rw [UInt64.le_iff_toNat_le]; exact nonzero)
  have masked : (off &&& (alignment - 1)).toNat ≤ alignment.toNat - 1 := by
    rw [UInt64.toNat_and,pred]; exact Nat.and_le_right
  have residue : (off &&& (alignment - 1)).toNat % 4 = off.toNat % 4 := by
    have three : (alignment.toNat - 1) % 2^2 = 2^2-1 := by omega
    rw [UInt64.toNat_and,pred]
    change (_ &&& _) % 2^2 = _
    rw [Nat.and_mod_two_pow,three,Nat.and_two_pow_sub_one_eq_mod]
    omega
  have value : (archivePadlen off alignment).toNat =
      (alignment.toNat - (off &&& (alignment - 1)).toNat) % alignment.toNat := by
    unfold archivePadlen
    rw [UInt64.toNat_mod,UInt64.toNat_sub_of_le _ _ (by rw [UInt64.le_iff_toNat_le]; omega)]
  refine ⟨?_,?_⟩
  · rw [UInt64.lt_iff_toNat_lt,value]
    exact Nat.mod_lt _ nonzero
  · have low : ∀ n, n % alignment.toNat % 4 = n % 4 := fun n =>
      Nat.mod_mod_of_dvd _ (Nat.dvd_of_mod_eq_zero multiple)
    rw [value,Nat.add_mod,low]
    omega

-- An archive whose recorded offset is the number of bytes written.
def synced (props : ArchiveProperties) (ino : UInt32) (out : List UInt8) : Archive :=
  ⟨⟨props,.ofNat out.length,ino⟩,out⟩

theorem emit_synced (counted : n = UInt64.ofNat bytes.length) (next : Write α) :
    (do writeAll bytes; advance n; next).run (synced props ino out) = next.run (synced props ino (out ++ bytes)) := by
  simp [writeAll,advance,synced,counted]

theorem emit_last (counted : n = UInt64.ofNat bytes.length) :
    (do writeAll bytes; advance n).run (synced props ino out) = (.ok (),synced props ino (out ++ bytes)) := by
  simp [writeAll,advance,synced,counted]

@[simp] theorem synced_off (props : ArchiveProperties) (ino : UInt32) (out : List UInt8) :
    (synced props ino out).state.off = .ofNat out.length := rfl
@[simp] theorem synced_state (props : ArchiveProperties) (ino : UInt32) (out : List UInt8) :
    (synced props ino out).state = ⟨props,.ofNat out.length,ino⟩ := rfl

theorem takeIno_synced (next : UInt32 → Write α) :
    (takeIno >>= next).run (synced props ino out) = (next ino).run (synced props (ino+1) out) := rfl

theorem writeName_synced (props : ArchiveProperties) (ino : UInt32) (out fname : List UInt8) :
    (writeName fname).run (synced props ino out) =
      (.ok (),synced props ino (out ++ (fname ++ zeros (1 + pad4 (out.length + fname.length + 1))))) := by
  have bound := pad4_lt (out.length + fname.length + 1)
  unfold writeName
  rw [emit_synced rfl]
  have padlen : archivePadlen (UInt64.ofNat (out ++ fname).length + 1) 4 =
      .ofNat (pad4 (out.length + fname.length + 1)) := by
    rw [← padlen_four,List.length_append,UInt64.ofNat_add _ 1]; rfl
  have seek : 1 + archivePadlen (UInt64.ofNat (out ++ fname).length + 1) 4 =
      .ofNat (1 + pad4 (out.length + fname.length + 1)) := by
    rw [padlen,UInt64.ofNat_add]; rfl
  have width : (UInt64.ofNat (1 + pad4 (out.length + fname.length + 1))).toNat =
      1 + pad4 (out.length + fname.length + 1) := by
    rw [UInt64.toNat_ofNat']; omega
  simp only [Eff.read_bind_run,synced_off,seek,width]
  rw [emit_last (by rw [length_zeros]),List.append_assoc]

theorem take_zeros (small : n ≤ 3) : [0,0,0].take n = zeros n := by
  unfold zeros
  interval_cases n <;> rfl

theorem writeDataPad_synced (props : ArchiveProperties) (ino : UInt32) (out : List UInt8) :
    writeDataPad.run (synced props ino out) = (.ok (),synced props ino (out ++ zeros (pad4 out.length))) := by
  have bound := pad4_lt out.length
  have width : (UInt64.ofNat (pad4 out.length)).toNat = pad4 out.length := by
    rw [UInt64.toNat_ofNat']; omega
  unfold writeDataPad
  simp only [Eff.read_bind_run,synced_off,padlen_four,width,take_zeros (Nat.le_of_lt_succ bound)]
  exact emit_last (by rw [length_zeros])

inductive Call where
  | path (p : Path) (md : ArchiveMd)
  | symlink (p : Path) (md : ArchiveMd) (tgt : Path)
  | file (p : Path) (md : ArchiveMd) (data : List UInt8)
  | trailer
deriving DecidableEq, Repr

def Call.target : Call → Path
  | .path p _ => p
  | .symlink p _ _ => p
  | .file p _ _ => p
  | .trailer => []

def Call.run : Call → Write Unit
  | .path p md => archivePath p md
  | .symlink p md tgt => archiveSymlink p md tgt
  | .file p md data => archiveFile p md data
  | .trailer => do let _ ← archiveTrailer

-- The argument checks that precede the first write.
def Call.Rejects : Call → Prop
  | .path p md => (∃ e, pathTrimPrefixes p = .error e) ∨
      (md.mode &&& S_IFMT = S_IFREG ∧ md.len > 0) ∨ md.mode &&& S_IFMT = S_IFLNK
  | .symlink p md tgt => (∃ e, pathTrimPrefixes p = .error e) ∨ tgt.length ≥ PATH_MAX ∨ md.mode &&& S_IFMT ≠ S_IFLNK
  | .file p md _ => (∃ e, pathTrimPrefixes p = .error e) ∨ md.mode &&& S_IFMT ≠ S_IFREG
  | .trailer => False

-- A data segment is copied only for a non-empty file, and then has to have the
-- length its metadata announced.
def Call.Short : Call → Prop
  | .file _ md data => md.len > 0 ∧ data.length ≠ md.len.toNat
  | _ => False

def Call.nextIno (c : Call) (ino : UInt32) : UInt32 :=
  match c with
  | .trailer => ino
  | _ => ino + 1

-- The entry a successful call writes when the archive holds `written` bytes.
def Describes (props : ArchiveProperties) (written : Nat) (ino : UInt32) : Call → Entry → Prop
  | .path p md,e => e.ino = ino ∧ e.md = {md with len:=0} ∧
      ∃ fname, pathTrimPrefixes p = .ok fname ∧ e.name = fname ++ zeros 1
  | .symlink p md tgt,e => e.ino = ino ∧ e.md = {md with len:=.ofNat tgt.length} ∧ e.data = tgt ∧
      ∃ fname, pathTrimPrefixes p = .ok fname ∧ e.name = fname ++ zeros 1
  | .file p md data,e => e.ino = ino ∧ e.md = md ∧ (md.len > 0 → e.data = data) ∧
      ∃ fname seek, pathTrimPrefixes p = .ok fname ∧
        dataAlignSeek ⟨props,.ofNat written,ino⟩ md fname = .ok seek ∧ e.name = fname ++ zeros (1 + seek.toNat)
  | .trailer,e => e = trailerEntry

-- The two prefixes are one: what is left behind "/" starts neither way.
theorem trimmedName_eq (p : Path) : trimmedName p =
    if (isAbsolute p || includeCurDir p) = true ∧ trimBody (p.drop 1) ≠ [] then trimBody (p.drop 1) else p := by
  unfold trimmedName stripRoot
  cases rooted : isAbsolute p with
  | true =>
    obtain ⟨rest,rfl⟩ := isAbsolute_iff.mp rooted
    by_cases empty : trimBody rest = []
    · simp [empty,stripCurDir,includeCurDir_slash]
    · simp [empty,stripCurDir,includeCurDir_trimBody]
  | false =>
    cases here : includeCurDir p with
    | true => simp [stripCurDir,here]
    | false => simp [stripCurDir,here]

theorem length_trimmedName_le (p : Path) : (trimmedName p).length ≤ p.length := by
  rw [trimmedName_eq]
  split
  · exact (length_trimBody_le _).trans (by simp)
  · exact Nat.le_refl _

theorem trim_ok_iff : pathTrimPrefixes p = .ok fname ↔ fname = trimmedName p ∧ (trimmedName p).length + 1 < PATH_MAX := by
  unfold pathTrimPrefixes
  dsimp only
  split
  · rename_i long
    exact ⟨nofun,fun short => absurd short.2 (Nat.not_lt.mpr long)⟩
  · rename_i short
    exact ⟨fun same => ⟨(Except.ok.inj same).symm,Nat.not_le.mp short⟩,fun named => congrArg Except.ok named.1.symm⟩

theorem trim_name (trimmed : pathTrimPrefixes p = .ok fname) : fname = trimmedName p := (trim_ok_iff.mp trimmed).1

theorem trim_short (trimmed : pathTrimPrefixes p = .ok fname) : fname.length + 1 < PATH_MAX := by
  rw [trim_name trimmed]
  exact (trim_ok_iff.mp trimmed).2

theorem trim_iff : (∃ fname, pathTrimPrefixes p = .ok fname) ↔ (trimmedName p).length + 1 < PATH_MAX :=
  ⟨fun ⟨_,trimmed⟩ => (trim_ok_iff.mp trimmed).2,fun short => ⟨_,trim_ok_iff.mpr ⟨rfl,short⟩⟩⟩

theorem trim_rejects (rejected : pathTrimPrefixes p = .error e) : e.kind = .invalidInput := by
  unfold pathTrimPrefixes at rejected
  dsimp only at rejected
  split at rejected
  · cases Except.error.inj rejected; rfl
  · cases rejected

theorem bif_rejects {value : α} {e : IoError} (rejected : (bif b then Except.ok value else .error e) = .error e')
    (kind : e.kind = .invalidInput) : e'.kind = .invalidInput := by
  cases b with
  | true => cases rejected
  | false =>
    cases rejected
    exact kind

theorem fromMetadata_rejects (rejected : ArchiveMd.fromMetadata state md = .error e) : e.kind = .invalidInput := by
  unfold ArchiveMd.fromMetadata at rejected
  simp only [bind,Except.bind] at rejected
  repeat' split at rejected
  all_goals try cases rejected
  all_goals first
    | rfl
    | rename_i failed
      exact bif_rejects failed rfl

theorem zeros_add (m n : Nat) : zeros (m + n) = zeros m ++ zeros n := List.replicate_add ..

-- Offset-based padding is header-relative padding once the header starts on a
-- 4 byte boundary.
theorem name_padding (aligned : out.length % 4 = 0) (header : hdr.length = NEWC_HDR_LEN) :
    fname ++ zeros (1 + pad4 ((out ++ hdr).length + fname.length + 1)) =
      (fname ++ zeros 1) ++ zeros (pad4 (NEWC_HDR_LEN + (fname ++ zeros 1).length)) := by
  have length : (out ++ hdr).length + fname.length + 1 = out.length + (NEWC_HDR_LEN + (fname ++ zeros 1).length) := by
    simp only [List.length_append,header,length_zeros]; omega
  rw [length,pad4_shift aligned,zeros_add,List.append_assoc]

theorem name_aligned (aligned : out.length % 4 = 0) (header : hdr.length = NEWC_HDR_LEN) (name : List UInt8) :
    (out ++ hdr ++ (name ++ zeros (pad4 (NEWC_HDR_LEN + name.length)))).length % 4 = 0 := by
  have padded := pad4_aligns (NEWC_HDR_LEN + name.length)
  simp only [List.length_append,header,length_zeros]
  omega

theorem data_padding (aligned : out.length % 4 = 0) : pad4 (out ++ bytes).length = pad4 bytes.length := by
  rw [List.length_append,pad4_shift aligned]

theorem header_count (narrow : namesize < 2^32) (ino : UInt32) (md : ArchiveMd) (filesize : UInt32) :
    UInt64.ofNat NEWC_HDR_LEN = .ofNat (newcHdr ino md filesize namesize).length := by rw [length_newcHdr narrow]

inductive Outcome (props : ArchiveProperties) (ino : UInt32) (out : List UInt8) (c : Call) :
    Except IoError Unit × Archive → Prop where
  | rejected (checked : c.Rejects) (kind : e.kind = .invalidInput) :
      Outcome props ino out c (.error e,synced props ino out)
  | wrote (admitted : ¬c.Rejects) (entry : Entry) (described : Describes props out.length ino c entry) :
      Outcome props ino out c (.ok (),synced props (c.nextIno ino) (out ++ entry.encode))
  | short (admitted : ¬c.Rejects) (cut : c.Short) (kind : e.kind = .unexpectedEof) :
      Outcome props ino out c (.error e,after)

theorem path_outcome (aligned : out.length % 4 = 0) (p : Path) (md : ArchiveMd) :
    Outcome props ino out (.path p md) ((archivePath p md).run (synced props ino out)) := by
  cases trimmed : pathTrimPrefixes p with
  | error e =>
    have ran : (archivePath p md).run (synced props ino out) = (.error e,synced props ino out) := by
      simp [archivePath,trimmed]
    rw [ran]
    exact .rejected (.inl ⟨e,trimmed⟩) (trim_rejects trimmed)
  | ok fname =>
    by_cases data : (md.mode &&& S_IFMT = S_IFREG ∧ md.len > 0) ∨ md.mode &&& S_IFMT = S_IFLNK
    · have ran : (archivePath p md).run (synced props ino out) =
          (.error ⟨.invalidInput,"archive_path does not support data files or symlinks"⟩,synced props ino out) := by
        simp [archivePath,trimmed,data]
      rw [ran]
      exact .rejected (.inr data) rfl
    · have small : fname.length + 1 < 2^32 := by have := trim_short trimmed; simp only [PATH_MAX] at this; omega
      let entry : Entry := ⟨ino,{md with len:=0},fname ++ zeros 1,[],rfl,by simp,by simpa using small⟩
      have ran : (archivePath p md).run (synced props ino out) =
          (.ok (),synced props (ino+1) (out ++ entry.encode)) := by
        simp only [archivePath,trimmed,Eff.ofExcept_ok,Eff.pure_bind_run,if_neg data]
        rw [takeIno_synced,emit_synced (header_count small _ _ _),writeName_synced,
          name_padding aligned (length_newcHdr small)]
        simp [entry,Entry.encode,Entry.header,newcHdr,pad4,zeros]
      rw [ran]
      exact .wrote (by simp [Call.Rejects,trimmed,data]) entry ⟨rfl,rfl,fname,trimmed,rfl⟩

theorem symlink_outcome (aligned : out.length % 4 = 0) (p : Path) (md : ArchiveMd) (tgt : Path) :
    Outcome props ino out (.symlink p md tgt) ((archiveSymlink p md tgt).run (synced props ino out)) := by
  cases trimmed : pathTrimPrefixes p with
  | error e =>
    have ran : (archiveSymlink p md tgt).run (synced props ino out) = (.error e,synced props ino out) := by
      simp [archiveSymlink,trimmed]
    rw [ran]
    exact .rejected (.inl ⟨e,trimmed⟩) (trim_rejects trimmed)
  | ok fname =>
    by_cases long : tgt.length ≥ PATH_MAX
    · have ran : (archiveSymlink p md tgt).run (synced props ino out) =
          (.error ⟨.invalidInput,"symlink path too long"⟩,synced props ino out) := by
        simp [archiveSymlink,trimmed,long]
      rw [ran]
      exact .rejected (.inr (.inl long)) rfl
    · by_cases kind : md.mode &&& S_IFMT = S_IFLNK
      · have small : fname.length + 1 < 2^32 := by have := trim_short trimmed; simp only [PATH_MAX] at this; omega
        have bounded : tgt.length < 2^32 := by simp only [PATH_MAX] at long; omega
        have exact32 : (UInt32.ofNat tgt.length).toNat = tgt.length := by
          rw [UInt32.toNat_ofNat']; exact Nat.mod_eq_of_lt bounded
        have widened : (UInt32.ofNat tgt.length).toUInt64 = .ofNat tgt.length := by
          apply UInt64.toNat_inj.mp
          rw [UInt32.toNat_toUInt64,exact32,UInt64.toNat_ofNat']
          omega
        let entry : Entry := ⟨ino,{md with len:=.ofNat tgt.length},fname ++ zeros 1,tgt,exact32.symm,by simp,
          by simpa using small⟩
        have ran : (archiveSymlink p md tgt).run (synced props ino out) =
            (.ok (),synced props (ino+1) (out ++ entry.encode)) := by
          simp only [archiveSymlink,trimmed,Eff.ofExcept_ok,Eff.pure_bind_run,if_neg long,kind,ne_eq,not_true_eq_false,
            if_false]
          rw [takeIno_synced,emit_synced (header_count small _ _ _),Eff.bind_run_ok (writeName_synced _ _ _ _),
            emit_synced widened,writeDataPad_synced,name_padding aligned (length_newcHdr small)]
          rw [data_padding (name_aligned aligned (length_newcHdr small) _)]
          simp [entry,Entry.encode,Entry.header,newcHdr]
        rw [ran]
        exact .wrote (by simp [Call.Rejects,trimmed,kind]; omega) entry ⟨rfl,rfl,rfl,fname,trimmed,rfl⟩
      · have ran : (archiveSymlink p md tgt).run (synced props ino out) =
            (.error (.ofKind .invalidInput),synced props ino out) := by
          simp [archiveSymlink,trimmed,long,kind]
        rw [ran]
        exact .rejected (.inr (.inr kind)) rfl

-- What the archive has to start from: alignment in whole 4 byte units.
structure Aligned (props : ArchiveProperties) : Prop where
  off : props.initialDataOff.toNat % 4 = 0
  align : props.dataAlign.toNat % 4 = 0

theorem seek_fits (ready : Aligned props) (aligned : written % 4 = 0) (short : fname.length + 1 < PATH_MAX)
    (md : ArchiveMd) (ino : UInt32) :
    ∃ seek, dataAlignSeek ⟨props,.ofNat written,ino⟩ md fname = .ok seek ∧
      (seek > 0 → (NEWC_HDR_LEN + fname.length + 1 + seek.toNat) % 4 = 0 ∧
        fname.length + 1 + seek.toNat ≤ props.namesizeMax.toNat) := by
  have zero : ¬((0 : UInt32) > 0) := by decide
  unfold dataAlignSeek
  dsimp only
  split
  · rename_i wanted
    generalize position : props.initialDataOff + UInt64.ofNat written + .ofNat NEWC_HDR_LEN + .ofNat fname.length + 1 =
      start
    have residue : start.toNat % 4 = (NEWC_HDR_LEN + fname.length + 1) % 4 := by
      have off := ready.off
      rw [← position]
      simp only [UInt64.toNat_add,UInt64.toNat_ofNat',NEWC_HDR_LEN]
      change (((((_ + written % 2^64) % 2^64 + _) % 2^64 + fname.length % 2^64) % 2^64 + 1) % 2^64) % 4 = _
      omega
    have wide : props.dataAlign.toUInt64.toNat = props.dataAlign.toNat := UInt32.toNat_toUInt64 _
    have limit := props.dataAlign.toNat_lt
    have nameLimit : props.namesizeMax.toUInt64.toNat = props.namesizeMax.toNat := UInt32.toNat_toUInt64 _
    obtain ⟨below,lands⟩ := padlen_aligns start props.dataAlign.toUInt64
      (by rw [gt_iff_lt,UInt32.lt_iff_toNat_lt] at wanted; rw [UInt64.lt_iff_toNat_lt,wide]; exact wanted.1)
      (by rw [wide]; exact ready.align)
    generalize archivePadlen start props.dataAlign.toUInt64 = len at below lands ⊢
    rw [UInt64.lt_iff_toNat_lt,wide] at below
    split
    · exact ⟨0,rfl,fun positive => absurd positive zero⟩
    · rename_i fits
      have small : len.toNat < 2^32 := by omega
      have narrowed : len.toUInt32.toNat = len.toNat := by
        rw [UInt64.toNat_toUInt32]; exact Nat.mod_eq_of_lt small
      rw [if_pos small]
      refine ⟨_,rfl,fun _ => ⟨?_,?_⟩⟩
      · rw [narrowed]; omega
      · have size : (len + UInt64.ofNat fname.length + 1).toNat = len.toNat + fname.length + 1 := by
          simp only [UInt64.toNat_add,UInt64.toNat_ofNat',PATH_MAX] at short ⊢
          change ((_ + _ % 2^64) % 2^64 + 1) % 2^64 = _
          omega
        rw [gt_iff_lt,UInt64.lt_iff_toNat_lt,size,nameLimit] at fits
        rw [narrowed]
        omega
  · exact ⟨0,rfl,fun positive => absurd positive zero⟩

-- The zeros injected behind a name never miss the 4 byte boundary.
def SeekLands (props : ArchiveProperties) : Prop := ∀ (written : Nat) (fname : List UInt8) (md : ArchiveMd) (ino : UInt32),
  written % 4 = 0 → fname.length + 1 < PATH_MAX → ∃ seek, dataAlignSeek ⟨props,.ofNat written,ino⟩ md fname = .ok seek ∧
    (seek > 0 → (NEWC_HDR_LEN + fname.length + 1 + seek.toNat) % 4 = 0 ∧
      fname.length + 1 + seek.toNat ≤ props.namesizeMax.toNat)

theorem Aligned.lands (ready : Aligned props) : SeekLands props :=
  fun _ _ md ino aligned short => seek_fits ready aligned short md ino

theorem writeFileName_synced (aligned : out.length % 4 = 0) (header : hdr.length = NEWC_HDR_LEN)
    (lands : seek > 0 → (NEWC_HDR_LEN + fname.length + 1 + seek.toNat) % 4 = 0) :
    (writeFileName fname seek).run (synced props ino (out ++ hdr)) =
      (.ok (),synced props ino (out ++ hdr ++ ((fname ++ zeros (1 + seek.toNat)) ++
        zeros (pad4 (NEWC_HDR_LEN + (fname ++ zeros (1 + seek.toNat)).length))))) := by
  by_cases positive : seek > 0
  · have exactly := lands positive
    have limit := seek.toNat_lt
    have seekLen : 1 + seek.toUInt64 = UInt64.ofNat (1 + seek.toNat) := by
      apply UInt64.toNat_inj.mp
      rw [UInt64.toNat_add,UInt32.toNat_toUInt64,UInt64.toNat_ofNat']
      rfl
    have width : (UInt64.ofNat (1 + seek.toNat)).toNat = 1 + seek.toNat := by
      rw [UInt64.toNat_ofNat']; omega
    have noPad : pad4 (NEWC_HDR_LEN + (fname ++ zeros (1 + seek.toNat)).length) = 0 :=
      pad4_zero (by simp only [List.length_append,length_zeros]; omega)
    have onBoundary : archivePadlen (UInt64.ofNat (out ++ hdr ++ fname).length + UInt64.ofNat (1 + seek.toNat)) 4 = 0 := by
      rw [← UInt64.ofNat_add,padlen_four,pad4_zero (by simp only [List.length_append,header]; omega)]
      rfl
    unfold writeFileName
    rw [if_pos positive,emit_synced rfl]
    simp only [Eff.read_bind_run,synced_off,seekLen,onBoundary,ne_eq,not_true_eq_false,if_false,width]
    rw [emit_last (by rw [length_zeros]),noPad]
    simp [zeros]
  · have none : seek = 0 := by
      apply UInt32.toNat_inj.mp
      rw [gt_iff_lt,UInt32.lt_iff_toNat_lt] at positive
      have : (0 : UInt32).toNat = 0 := rfl
      omega
    subst none
    unfold writeFileName
    rw [if_neg positive,writeName_synced,name_padding aligned header]
    rfl

theorem copyData_synced (aligned : out.length % 4 = 0) (whole : data.length = md.len.toNat) :
    (copyData md data).run (synced props ino out) = (.ok (),synced props ino (out ++ (data ++ zeros (pad4 data.length)))) := by
  unfold copyData
  split
  · have widened : md.len.toUInt64 = .ofNat data.length := by
      apply UInt64.toNat_inj.mp
      have limit := md.len.toNat_lt
      rw [UInt32.toNat_toUInt64,UInt64.toNat_ofNat',whole]
      omega
    rw [if_neg (not_not.mpr whole),emit_synced widened,writeDataPad_synced,data_padding aligned,List.append_assoc]
  · rename_i empty
    have none : data = [] := by
      rw [gt_iff_lt,UInt32.lt_iff_toNat_lt] at empty
      have : (0 : UInt32).toNat = 0 := rfl
      apply List.eq_nil_of_length_eq_zero
      omega
    simp [none,pad4,zeros]

-- archive_file up to the copy of the data.
def archiveFileLead (path : Path) (md : ArchiveMd) : Write Unit := do
  let fname ← Eff.ofExcept (pathTrimPrefixes path)
  if md.mode &&& S_IFMT ≠ S_IFREG then Eff.fail ⟨.invalidInput,"not a file"⟩
  else do
    let state ← Eff.read (·.state)
    let seek ← Eff.ofExcept (dataAlignSeek state md fname)
    let ino ← takeIno
    writeAll (newcHdr ino md md.len (fname.length + 1 + seek.toNat))
    advance (.ofNat NEWC_HDR_LEN)
    writeFileName fname seek

theorem archiveFile_lead (path : Path) (md : ArchiveMd) (data : List UInt8) (a : Archive) :
    (archiveFile path md data).run a = (archiveFileLead path md >>= fun _ => copyData md data).run a := by
  rw [Eff.bind_run]
  unfold archiveFile archiveFileLead
  cases pathTrimPrefixes path with
  | error e => rfl
  | ok fname =>
    by_cases kind : md.mode &&& S_IFMT ≠ S_IFREG
    · simp only [if_pos kind,Eff.ofExcept_ok,Eff.pure_bind_run,Eff.fail_run]
    · simp only [if_neg kind,Eff.ofExcept_ok,Eff.pure_bind_run,Eff.read_bind_run]
      cases dataAlignSeek a.state md fname with
      | error e => rfl
      | ok seek => rfl

theorem lead_written (aligned : out.length % 4 = 0) (trimmed : pathTrimPrefixes p = .ok fname)
    (kind : md.mode &&& S_IFMT = S_IFREG) (sought : dataAlignSeek ⟨props,.ofNat out.length,ino⟩ md fname = .ok seek)
    (small : fname.length + 1 + seek.toNat < 2^32) (lands : seek > 0 → (NEWC_HDR_LEN + fname.length + 1 + seek.toNat) % 4 = 0) :
    (archiveFileLead p md).run (synced props ino out) = (.ok (),synced props (ino+1)
      (out ++ newcHdr ino md md.len (fname.length + 1 + seek.toNat) ++ ((fname ++ zeros (1 + seek.toNat)) ++
        zeros (pad4 (NEWC_HDR_LEN + (fname ++ zeros (1 + seek.toNat)).length))))) := by
  have header : (newcHdr ino md md.len (fname.length + 1 + seek.toNat)).length = NEWC_HDR_LEN := length_newcHdr small
  simp only [archiveFileLead,trimmed,Eff.ofExcept_ok,Eff.pure_bind_run,Eff.read_bind_run,synced_state,kind,ne_eq,
    not_true_eq_false,if_false,sought]
  rw [takeIno_synced,emit_synced (header_count small _ _ _),writeFileName_synced aligned header lands]

-- A file is refused before anything is written, or its header and name are
-- written in full: only the copy of the data can still fail.
theorem file_named (ready : SeekLands props) (aligned : out.length % 4 = 0) (trimmed : pathTrimPrefixes p = .ok fname)
    (kind : md.mode &&& S_IFMT = S_IFREG) (ino : UInt32) :
    ∃ seek, dataAlignSeek ⟨props,.ofNat out.length,ino⟩ md fname = .ok seek ∧ fname.length + 1 + seek.toNat < 2^32 ∧
      (archiveFileLead p md).run (synced props ino out) = (.ok (),synced props (ino+1)
        (out ++ newcHdr ino md md.len (fname.length + 1 + seek.toNat) ++ ((fname ++ zeros (1 + seek.toNat)) ++
          zeros (pad4 (NEWC_HDR_LEN + (fname ++ zeros (1 + seek.toNat)).length))))) := by
  have short := trim_short trimmed
  obtain ⟨seek,sought,lands⟩ := ready out.length fname md ino aligned short
  have small : fname.length + 1 + seek.toNat < 2^32 := by
    have limit := props.namesizeMax.toNat_lt
    simp only [PATH_MAX] at short
    by_cases positive : seek > 0
    · have := (lands positive).2; omega
    · rw [gt_iff_lt,UInt32.lt_iff_toNat_lt] at positive
      have : (0 : UInt32).toNat = 0 := rfl
      omega
  exact ⟨seek,sought,small,lead_written aligned trimmed kind sought small fun positive => (lands positive).1⟩

theorem file_outcome (ready : SeekLands props) (aligned : out.length % 4 = 0) (p : Path) (md : ArchiveMd) (data : List UInt8) :
    Outcome props ino out (.file p md data) ((archiveFile p md data).run (synced props ino out)) := by
  cases trimmed : pathTrimPrefixes p with
  | error e =>
    have ran : (archiveFile p md data).run (synced props ino out) = (.error e,synced props ino out) := by
      simp [archiveFile,trimmed]
    rw [ran]
    exact .rejected (.inl ⟨e,trimmed⟩) (trim_rejects trimmed)
  | ok fname =>
    by_cases kind : md.mode &&& S_IFMT = S_IFREG
    · obtain ⟨seek,sought,small,lead⟩ := file_named ready aligned trimmed kind ino
      have named := (archiveFile_lead p md data (synced props ino out)).trans (Eff.bind_run_ok lead)
      have admitted : ¬(Call.file p md data).Rejects := by simp [Call.Rejects,trimmed,kind]
      have header : (newcHdr ino md md.len (fname.length + 1 + seek.toNat)).length = NEWC_HDR_LEN := length_newcHdr small
      have start := name_aligned aligned header (fname ++ zeros (1 + seek.toNat))
      -- an empty file's reader is never read, whatever it would yield
      by_cases empty : md.len = 0
      · let entry : Entry := ⟨ino,md,fname ++ zeros (1 + seek.toNat),[],by rw [empty]; rfl,by simp; omega,
          by simp only [List.length_append,length_zeros]; omega⟩
        have ran : (archiveFile p md data).run (synced props ino out) =
            (.ok (),synced props (ino+1) (out ++ entry.encode)) := by
          have none : copyData md data = pure () := by simp [copyData,empty]
          rw [named,none]
          simp [entry,Entry.encode,Entry.header,pad4,zeros,Nat.add_assoc]
        rw [ran]
        exact .wrote admitted entry ⟨rfl,rfl,by simp [empty],fname,seek,trimmed,sought,rfl⟩
      · by_cases whole : data.length = md.len.toNat
        · let entry : Entry := ⟨ino,md,fname ++ zeros (1 + seek.toNat),data,whole,by simp; omega,
            by simp only [List.length_append,length_zeros]; omega⟩
          have ran : (archiveFile p md data).run (synced props ino out) =
              (.ok (),synced props (ino+1) (out ++ entry.encode)) := by
            rw [named,copyData_synced start whole]
            simp [entry,Entry.encode,Entry.header,Nat.add_assoc]
          rw [ran]
          exact .wrote admitted entry ⟨rfl,rfl,fun _ => rfl,fname,seek,trimmed,sought,rfl⟩
        · have some : md.len > 0 := UInt32.pos_iff_ne_zero.mpr empty
          rw [named]
          simp only [copyData,if_pos some,ne_eq,whole,not_false_eq_true,if_true,writeAll,Eff.update_bind_run,Eff.fail_run]
          exact .short admitted ⟨some,whole⟩ rfl
    · have ran : (archiveFile p md data).run (synced props ino out) =
          (.error ⟨.invalidInput,"not a file"⟩,synced props ino out) := by
        simp [archiveFile,trimmed,kind]
      rw [ran]
      exact .rejected (.inr kind) rfl

theorem archiveTrailer_synced (aligned : out.length % 4 = 0) :
    archiveTrailer.run (synced props ino out) = (.ok (.ofNat (out ++ trailerEntry.encode).length),
      synced props ino (out ++ trailerEntry.encode)) := by
  have header : (newcHdr 0 trailerMd 0 (trailerName.length + 1)).length = NEWC_HDR_LEN := length_newcHdr (by decide)
  have bound := pad4_lt (NEWC_HDR_LEN + (trailerName.length + 1))
  have padlen : archivePadlen (UInt64.ofNat (out ++ newcHdr 0 trailerMd 0 (trailerName.length + 1)).length +
      .ofNat (trailerName.length + 1)) 4 = .ofNat (pad4 (NEWC_HDR_LEN + (trailerName.length + 1))) := by
    rw [← UInt64.ofNat_add,padlen_four,List.length_append,header,Nat.add_assoc,pad4_shift aligned]
  have width : (UInt64.ofNat (pad4 (NEWC_HDR_LEN + (trailerName.length + 1)))).toNat =
      pad4 (NEWC_HDR_LEN + (trailerName.length + 1)) := by rw [UInt64.toNat_ofNat']; omega
  have counted : UInt64.ofNat (trailerName.length + 1) + .ofNat (pad4 (NEWC_HDR_LEN + (trailerName.length + 1))) =
      .ofNat (trailerName ++ [0] ++ zeros (pad4 (NEWC_HDR_LEN + (trailerName.length + 1)))).length := by
    rw [← UInt64.ofNat_add]
    simp only [List.length_append,length_zeros,List.length_singleton]
  have written : out ++ newcHdr 0 trailerMd 0 (trailerName.length + 1) ++
      (trailerName ++ [0] ++ zeros (pad4 (NEWC_HDR_LEN + (trailerName.length + 1)))) = out ++ trailerEntry.encode := by
    simp [trailerEntry,Entry.encode,Entry.header,zeros,pad4,trailerMd]
  simp only [archiveTrailer]
  rw [emit_synced (by rw [header])]
  simp only [Eff.read_bind_run,synced_off,padlen,width,take_zeros (Nat.le_of_lt_succ bound)]
  rw [emit_synced counted,written]
  rfl

theorem trailer_outcome (aligned : out.length % 4 = 0) :
    Outcome props ino out .trailer (Call.trailer.run.run (synced props ino out)) := by
  have ran : Call.trailer.run.run (synced props ino out) = (.ok (),synced props ino (out ++ trailerEntry.encode)) := by
    simp only [Call.run]
    rw [Eff.bind_run_ok (archiveTrailer_synced aligned)]
    rfl
  rw [ran]
  exact .wrote id trailerEntry rfl

-- Everything one call can do to an archive in step with its output.
theorem call_outcome (ready : SeekLands props) (aligned : out.length % 4 = 0) (c : Call) :
    Outcome props ino out c (c.run.run (synced props ino out)) := by
  cases c with
  | path p md => exact path_outcome aligned p md
  | symlink p md tgt => exact symlink_outcome aligned p md tgt
  | file p md data => exact file_outcome ready aligned p md data
  | trailer => exact trailer_outcome aligned

variable {c : Call} {result : Except IoError Unit} {before after : Archive}

theorem admitted_step (ready : Aligned props) (aligned : out.length % 4 = 0)
    (ran : c.run.run (synced props ino out) = (result,after)) (admitted : result = .ok () ∨ c.Rejects) :
    (c.Rejects ∧ after = synced props ino out ∧ ∃ e, result = .error e ∧ e.kind = .invalidInput) ∨
    (¬c.Rejects ∧ ∃ entry, result = .ok () ∧ Describes props out.length ino c entry ∧
      after = synced props (c.nextIno ino) (out ++ entry.encode)) := by
  have outcome : Outcome props ino out c _ := call_outcome ready.lands aligned c
  rw [ran] at outcome
  cases outcome with
  | rejected checked kind => exact .inl ⟨checked,rfl,_,rfl,kind⟩
  | wrote kept entry described => exact .inr ⟨kept,entry,rfl,described,rfl⟩
  | short kept cut kind =>
    rcases admitted with ok | checked
    · cases ok
    · exact absurd checked kept

-- A run of calls, each of which succeeds or is turned away by its own checks.
inductive Reached (props : ArchiveProperties) : List (Call × Except IoError Unit) → Archive → Prop where
  | start : Reached props [] (.new props)
  | call {log : List (Call × Except IoError Unit)} {before after : Archive} {c : Call} {result : Except IoError Unit}
      (prior : Reached props log before) (ran : c.run.run before = (result,after))
      (admitted : result = .ok () ∨ c.Rejects) : Reached props (log ++ [(c,result)]) after

-- The entries that took an inode number so far.
def entryCount : List (Call × Except IoError Unit) → Nat
  | [] => 0
  | (.trailer,_) :: rest => entryCount rest
  | (_,.ok ()) :: rest => entryCount rest + 1
  | (_,.error _) :: rest => entryCount rest

theorem entryCount_append (front back : List (Call × Except IoError Unit)) :
    entryCount (front ++ back) = entryCount front + entryCount back := by
  induction front with
  | nil => simp [entryCount]
  | cons row rest ih =>
    obtain ⟨c,result⟩ := row
    cases c <;> cases result <;> simp only [List.cons_append,entryCount,ih] <;> omega

theorem nextIno_count (c : Call) (base : UInt32) (n : Nat) :
    c.nextIno (base + .ofNat n) = base + .ofNat (n + entryCount [(c,.ok ())]) := by
  cases c <;> simp [Call.nextIno,entryCount,UInt32.ofNat_add,UInt32.add_assoc]

theorem entryCount_rejected (c : Call) (e : IoError) : entryCount [(c,.error e)] = 0 := by
  cases c <;> rfl

theorem reached_synced (ready : Aligned props) (path : Reached props log a) :
    a = synced props (props.initialIno + .ofNat (entryCount log)) a.out ∧ a.out.length % 4 = 0 := by
  induction path with
  | start => exact ⟨by simp [Archive.new,ArchiveState.new,synced,entryCount],rfl⟩
  | call prior ran admitted ih =>
    obtain ⟨same,aligned⟩ := ih
    rw [same] at ran
    rcases admitted_step ready aligned ran admitted with ⟨_,rfl,e,rfl,_⟩ | ⟨_,entry,rfl,_,rfl⟩
    · rw [entryCount_append,entryCount_rejected,Nat.add_zero]
      exact ⟨rfl,aligned⟩
    · rw [entryCount_append,nextIno_count]
      refine ⟨rfl,?_⟩
      have whole := entry.encode_aligned
      simp only [synced,List.length_append]
      omega

theorem archive_accounting (aligned : props.initialDataOff.toNat % 4 = 0) (multiple : props.dataAlign.toNat % 4 = 0)
    (path : Reached props log before) (ran : c.run.run before = (result,after))
    (admitted : result = .ok () ∨ c.Rejects) (bounded : props.initialDataOff.toNat + after.out.length < 2^63) :
    (after.state.off.toNat = after.out.length ∧ after.out.length % 4 = 0) ∧
    (c.Rejects → (∃ e, result = .error e ∧ e.kind = .invalidInput) ∧ after = before) ∧
    (result = .ok () → ∃ ino md filesize namesize rest,
      after.out = before.out ++ newcHdr ino md filesize namesize ++ rest ∧
      (newcHdr ino md filesize namesize).length = 110 ∧
      (c ≠ .trailer → props.initialIno.toNat + entryCount log < 2^32 →
        ino.toNat = props.initialIno.toNat + entryCount log)) := by
  have ready : Aligned props := ⟨aligned,multiple⟩
  obtain ⟨same,start⟩ := reached_synced ready path
  obtain ⟨next,finish⟩ := reached_synced ready (path.call ran admitted)
  refine ⟨⟨?_,finish⟩,?_⟩
  · rw [next]
    change (UInt64.ofNat after.out.length).toNat = after.out.length
    rw [UInt64.toNat_ofNat']
    omega
  · rw [same] at ran
    rcases admitted_step ready start ran admitted with ⟨checked,equal,e,rfl,kind⟩ | ⟨kept,entry,rfl,described,equal⟩
    · exact ⟨fun _ => ⟨⟨e,rfl,kind⟩,equal.trans same.symm⟩,by simp⟩
    · refine ⟨fun checked => absurd checked kept,fun _ => ⟨entry.ino,entry.md,entry.md.len,entry.name.length,
        (entry.name ++ zeros (pad4 (NEWC_HDR_LEN + entry.name.length))) ++ (entry.data ++ zeros (pad4 entry.data.length)),
        ?_,entry.length_header,?_⟩⟩
      · rw [equal]
        simp [synced,Entry.encode,Entry.header]
      · intro body small
        have number : entry.ino = props.initialIno + .ofNat (entryCount log) := by
          cases c with
          | trailer => exact absurd rfl body
          | path p md => exact described.1
          | symlink p md tgt => exact described.1
          | file p md data => exact described.1
        rw [number,UInt32.toNat_add,UInt32.toNat_ofNat']
        omega

def firstDir : Except IoError Unit × Archive := (Call.path [97] ⟨2,0o040755,0,0,0,0,0,0⟩).run.run (.new {})

theorem archive_accounting_first_dir :
    firstDir.2.state.off.toNat = firstDir.2.out.length ∧ firstDir.2.out.length % 4 = 0 := by
  have ran : (Call.path [97] ⟨2,0o040755,0,0,0,0,0,0⟩).run.run (.new {}) = (firstDir.1,firstDir.2) := rfl
  exact (archive_accounting (by decide) (by decide) .start ran (.inl rfl) (by decide +kernel)).1

end Rapido.Cpio
