import Rapido.CpioAccounting
import Mathlib.Data.Nat.Log

-- Where the data segments of an archive start.
namespace Rapido.Cpio
open UnixPath Newc
variable {props : ArchiveProperties} {p : Path} {md : ArchiveMd} {fname data out : List UInt8} {k n : Nat}

-- The bytes missing up to the next multiple of align.
def padTo (align n : Nat) : Nat := (align - n % align) % align

theorem padTo_lands (positive : 0 < align) (n : Nat) : (n + padTo align n) % align = 0 := by
  have small := Nat.mod_lt n positive
  unfold padTo
  rw [Nat.add_mod,Nat.mod_mod]
  by_cases whole : n % align = 0
  · simp [whole]
  · rw [Nat.mod_eq_of_lt (show align - n % align < align by omega),Nat.add_sub_cancel' (Nat.le_of_lt small),Nat.mod_self]

theorem padTo_congr (same : n % align = m % align) : padTo align n = padTo align m := by
  unfold padTo
  rw [same]

-- The mask of archive_padlen is a remainder when the alignment is a power of two.
theorem padlen_power {off alignment : UInt64} (power : alignment.toNat = 2^k) :
    (archivePadlen off alignment).toNat = padTo alignment.toNat off.toNat := by
  have positive : 0 < alignment.toNat := by rw [power]; exact Nat.two_pow_pos k
  have pred : (alignment - 1).toNat = alignment.toNat - 1 :=
    UInt64.toNat_sub_of_le _ _ (by rw [UInt64.le_iff_toNat_le]; exact positive)
  have masked : (off &&& (alignment - 1)).toNat = off.toNat % alignment.toNat := by
    rw [UInt64.toNat_and,pred,power,Nat.and_two_pow_sub_one_eq_mod]
  have small := Nat.mod_lt off.toNat positive
  unfold archivePadlen padTo
  rw [UInt64.toNat_mod,UInt64.toNat_sub_of_le _ _ (by rw [UInt64.le_iff_toNat_le,masked]; omega),masked]

-- The position of the byte behind the name, as archive_file computes it.
def nameEnd (props : ArchiveProperties) (written : Nat) (fname : List UInt8) : UInt64 :=
  props.initialDataOff + .ofNat written + .ofNat NEWC_HDR_LEN + .ofNat fname.length + 1

-- The sum wraps at 2^64, which no power of two notices.
theorem nameEnd_mod (small : k ≤ 64) (written : Nat) (fname : List UInt8) :
    (nameEnd props written fname).toNat % 2^k =
      (props.initialDataOff.toNat + written + NEWC_HDR_LEN + fname.length + 1) % 2^k := by
  have whole : (nameEnd props written fname).toNat =
      (props.initialDataOff.toNat + written + NEWC_HDR_LEN + fname.length + 1) % 2^64 := by
    simp only [nameEnd,UInt64.toNat_add,UInt64.toNat_ofNat',NEWC_HDR_LEN]
    change ((((_ + written % 2^64) % 2^64 + _) % 2^64 + fname.length % 2^64) % 2^64 + 1) % 2^64 = _
    omega
  rw [whole,Nat.mod_mod_of_dvd _ (Nat.pow_dvd_pow 2 small)]

-- padded_namesize
def paddedNamesize (props : ArchiveProperties) (written : Nat) (fname : List UInt8) : Nat :=
  (archivePadlen (nameEnd props written fname) props.dataAlign.toUInt64).toNat + fname.length + 1

theorem padlen_lt (positive : 0 < alignment.toNat) (off : UInt64) : (archivePadlen off alignment).toNat < alignment.toNat := by
  unfold archivePadlen
  rw [UInt64.toNat_mod]
  exact Nat.mod_lt _ positive

theorem seek_value (positive : props.dataAlign > 0) (large : md.len > props.dataAlign) (short : fname.length + 1 < PATH_MAX)
    (written : Nat) (ino : UInt32) : ∃ seek, dataAlignSeek ⟨props,.ofNat written,ino⟩ md fname = .ok seek ∧
      fname.length + 1 + seek.toNat = if paddedNamesize props written fname ≤ props.namesizeMax.toNat
        then paddedNamesize props written fname else fname.length + 1 := by
  have wide : props.dataAlign.toUInt64.toNat = props.dataAlign.toNat := UInt32.toNat_toUInt64 _
  have limit := props.dataAlign.toNat_lt
  have nameLimit : props.namesizeMax.toUInt64.toNat = props.namesizeMax.toNat := UInt32.toNat_toUInt64 _
  have some : 0 < props.dataAlign.toNat := UInt32.lt_iff_toNat_lt.mp positive
  have below := padlen_lt (by rw [wide]; exact some) (nameEnd props written fname)
  have position : props.initialDataOff + .ofNat written + .ofNat NEWC_HDR_LEN + .ofNat fname.length + 1 =
      nameEnd props written fname := rfl
  unfold paddedNamesize dataAlignSeek
  dsimp only
  rw [if_pos ⟨positive,large⟩,position]
  generalize archivePadlen (nameEnd props written fname) props.dataAlign.toUInt64 = len at below ⊢
  have size : (len + UInt64.ofNat fname.length + 1).toNat = len.toNat + fname.length + 1 := by
    simp only [UInt64.toNat_add,UInt64.toNat_ofNat',PATH_MAX] at short ⊢
    change ((_ + _ % 2^64) % 2^64 + 1) % 2^64 = _
    omega
  split
  · rename_i beyond
    rw [gt_iff_lt,UInt64.lt_iff_toNat_lt,size,nameLimit] at beyond
    exact ⟨0,rfl,by rw [if_neg (Nat.not_le.mpr beyond)]; rfl⟩
  · rename_i fits
    rw [gt_iff_lt,UInt64.lt_iff_toNat_lt,size,nameLimit] at fits
    have small : len.toNat < 2^32 := by omega
    have narrowed : len.toUInt32.toNat = len.toNat := by
      rw [UInt64.toNat_toUInt32]
      exact Nat.mod_eq_of_lt small
    rw [if_pos small,if_pos (Nat.not_lt.mp fits)]
    exact ⟨_,rfl,by rw [narrowed]; omega⟩

-- What archive_file writes in front of the data.
def fileLead (ino : UInt32) (md : ArchiveMd) (fname : List UInt8) (namesize : Nat) : List UInt8 :=
  newcHdr ino md md.len namesize ++ (fname ++ zeros (namesize - fname.length)) ++ zeros (pad4 (NEWC_HDR_LEN + namesize))

theorem length_fileLead (narrow : namesize < 2^32) (named : fname.length + 1 ≤ namesize) (ino : UInt32) (md : ArchiveMd) :
    (fileLead ino md fname namesize).length = NEWC_HDR_LEN + namesize + pad4 (NEWC_HDR_LEN + namesize) := by
  simp only [fileLead,List.length_append,length_newcHdr narrow,length_zeros]
  omega

def copied (md : ArchiveMd) (data : List UInt8) : Except IoError Unit :=
  if data.length = md.len.toNat then .ok () else .error ⟨.unexpectedEof,"copy returned unexpected length"⟩

theorem copyData_outcome (props : ArchiveProperties) (ino : UInt32) (aligned : out.length % 4 = 0) (filled : md.len > 0)
    (data : List UInt8) : ∃ after, (copyData md data).run (synced props ino out) = (copied md data,after) ∧ out ++ data <+: after.out := by
  by_cases whole : data.length = md.len.toNat
  · refine ⟨synced props ino (out ++ (data ++ zeros (pad4 data.length))),?_,?_⟩
    · rw [copyData_synced aligned whole,copied,if_pos whole]
    · change out ++ data <+: out ++ (data ++ zeros _)
      rw [← List.append_assoc]
      exact List.prefix_append _ _
  · refine ⟨⟨(synced props ino out).state,out ++ data⟩,?_,List.prefix_rfl⟩
    simp [copyData,if_pos filled,whole,copied,writeAll,synced]

-- A regular file with data: its name field is padded_namesize long where that
-- fits, and one byte longer than the name otherwise.
theorem lead_placed (ready : SeekLands props) (aligned : out.length % 4 = 0) (trimmed : pathTrimPrefixes p = .ok fname)
    (kind : md.mode &&& S_IFMT = S_IFREG) (positive : props.dataAlign > 0) (large : md.len > props.dataAlign) (ino : UInt32) :
    ∃ namesize, (archiveFileLead p md).run (synced props ino out) =
        (.ok (),synced props (ino+1) (out ++ fileLead ino md fname namesize)) ∧
      (out ++ fileLead ino md fname namesize).length % 4 = 0 ∧ fname.length + 1 ≤ namesize ∧ namesize < 2^32 ∧
      namesize = if paddedNamesize props out.length fname ≤ props.namesizeMax.toNat
        then paddedNamesize props out.length fname else fname.length + 1 := by
  have short := trim_short trimmed
  obtain ⟨seek,sought,small,named⟩ := file_named ready aligned trimmed kind ino
  obtain ⟨seek',same,value⟩ := seek_value positive large short out.length ino
  rw [sought] at same
  cases same
  have count : fname.length + 1 + seek.toNat - fname.length = 1 + seek.toNat := by omega
  have header : (newcHdr ino md md.len (fname.length + 1 + seek.toNat)).length = NEWC_HDR_LEN := length_newcHdr small
  have start := name_aligned aligned header (fname ++ zeros (1 + seek.toNat))
  refine ⟨fname.length + 1 + seek.toNat,?_,?_,by omega,small,value⟩
  · simpa [fileLead,count,Nat.add_assoc] using named
  · simpa [fileLead,count,Nat.add_assoc] using start

theorem file_copied (aligned : out.length % 4 = 0) (filled : md.len > 0) (data : List UInt8)
    (led : (archiveFileLead p md).run a = (.ok (),synced props ino out)) :
    ∃ after, (archiveFile p md data).run a = (copied md data,after) ∧ out ++ data <+: after.out := by
  obtain ⟨after,ran,kept⟩ := copyData_outcome props ino aligned filled data
  exact ⟨after,by rw [archiveFile_lead,Eff.bind_run_ok led,ran],kept⟩

theorem file_rejected (checked : (Call.file p md data).Rejects) (before : Archive) :
    ∃ e, (archiveFile p md data).run before = (.error e,before) ∧ e.kind = .invalidInput := by
  rcases checked with ⟨e,failed⟩ | kind
  · exact ⟨e,by simp [archiveFile,failed],trim_rejects failed⟩
  · cases trimmed : pathTrimPrefixes p with
    | error e => exact ⟨e,by simp [archiveFile,trimmed],trim_rejects trimmed⟩
    | ok fname => exact ⟨⟨.invalidInput,"not a file"⟩,by simp [archiveFile,trimmed,kind],rfl⟩

-- With a power of two the code's own count is the number of bytes missing.
theorem padded_power (power : props.dataAlign.toNat = 2^k) (written : Nat) (fname : List UInt8) :
    paddedNamesize props written fname = fname.length + 1 + padTo props.dataAlign.toNat
      (props.initialDataOff.toNat + written + NEWC_HDR_LEN + fname.length + 1) := by
  have wide : props.dataAlign.toUInt64.toNat = props.dataAlign.toNat := UInt32.toNat_toUInt64 _
  have small : k ≤ 64 := by
    have limit := props.dataAlign.toNat_lt
    rw [power] at limit
    have below := (Nat.pow_lt_pow_iff_right (by decide)).mp limit
    omega
  rw [paddedNamesize,padlen_power (by rw [wide]; exact power),wide,power,padTo_congr (nameEnd_mod small written fname)]
  omega

-- A name field that ends on a multiple of four needs no further padding.
theorem padded_lands (ready : Aligned props) (positive : 0 < props.dataAlign.toNat) (aligned : written % 4 = 0)
    (padded : namesize = fname.length + 1 + padTo props.dataAlign.toNat
      (props.initialDataOff.toNat + written + NEWC_HDR_LEN + fname.length + 1)) :
    (props.initialDataOff.toNat + written + (NEWC_HDR_LEN + namesize + pad4 (NEWC_HDR_LEN + namesize))) %
      props.dataAlign.toNat = 0 := by
  have lands := padTo_lands positive (props.initialDataOff.toNat + written + NEWC_HDR_LEN + fname.length + 1)
  generalize padTo props.dataAlign.toNat (props.initialDataOff.toNat + written + NEWC_HDR_LEN + fname.length + 1) = zeros at lands padded
  have position : props.initialDataOff.toNat + written + NEWC_HDR_LEN + fname.length + 1 + zeros =
      props.initialDataOff.toNat + written + (NEWC_HDR_LEN + namesize) := by omega
  have four : (NEWC_HDR_LEN + namesize) % 4 = 0 := by
    have divides := Nat.dvd_of_mod_eq_zero ready.align
    have multiple := Nat.mod_eq_zero_of_dvd (Nat.dvd_trans divides (Nat.dvd_of_mod_eq_zero lands))
    have off := ready.off
    omega
  rw [pad4_zero four,Nat.add_zero,← position,lands]

theorem data_segment_aligned (power : ∃ k, 2 ≤ k ∧ props.dataAlign.toNat = 2^k) (multiple : props.initialDataOff.toNat % 4 = 0)
    (path : Reached props log before) (p : Path) (large : md.len > props.dataAlign) (data : List UInt8) :
    ((Call.file p md data).Rejects ∧ ∃ e, (archiveFile p md data).run before = (.error e,before) ∧ e.kind = .invalidInput) ∨
    ∃ fname namesize after, pathTrimPrefixes p = .ok fname ∧ (archiveFile p md data).run before = (copied md data,after) ∧
      fname.length + 1 ≤ namesize ∧ namesize ≤ max (fname.length + 1) props.namesizeMax.toNat ∧
      before.out ++ fileLead before.state.ino md fname namesize ++ data <+: after.out ∧
      if fname.length + 1 + padTo props.dataAlign.toNat
          (props.initialDataOff.toNat + before.out.length + NEWC_HDR_LEN + fname.length + 1) ≤ props.namesizeMax.toNat
      then (props.initialDataOff.toNat + (before.out ++ fileLead before.state.ino md fname namesize).length) %
        props.dataAlign.toNat = 0
      else namesize = fname.length + 1 := by
  obtain ⟨k,two,power⟩ := power
  have positive : 0 < props.dataAlign.toNat := by
    rw [power]
    exact Nat.two_pow_pos k
  have ready : Aligned props := by
    refine ⟨multiple,Nat.mod_eq_zero_of_dvd ?_⟩
    rw [power]
    exact Nat.pow_dvd_pow 2 two
  obtain ⟨same,aligned⟩ := reached_synced ready path
  by_cases checked : (Call.file p md data).Rejects
  · exact .inl ⟨checked,file_rejected checked before⟩
  · obtain ⟨fname,trimmed⟩ : ∃ fname, pathTrimPrefixes p = .ok fname := by
      cases trimmed : pathTrimPrefixes p with
      | error e => exact absurd (.inl ⟨e,trimmed⟩) checked
      | ok fname => exact ⟨fname,rfl⟩
    have kind : md.mode &&& S_IFMT = S_IFREG := by
      by_contra other
      exact checked (.inr other)
    obtain ⟨namesize,led,landed,named,narrow,value⟩ := lead_placed ready.lands aligned trimmed kind positive large
      (props.initialIno + .ofNat (entryCount log))
    obtain ⟨after,ran,kept⟩ := file_copied landed (UInt32.lt_trans positive large) data led
    rw [← same] at ran
    have ino : before.state.ino = props.initialIno + .ofNat (entryCount log) := by rw [same]; rfl
    rw [← ino] at kept
    rw [padded_power power] at value
    refine .inr ⟨fname,namesize,after,trimmed,ran,named,?_,kept,?_⟩
    · split at value <;> omega
    · rw [List.length_append,length_fileLead narrow named,← Nat.add_assoc props.initialDataOff.toNat]
      split at value
      · rename_i fits
        rw [if_pos fits]
        exact padded_lands ready positive aligned value
      · rename_i beyond
        rw [if_neg beyond]
        exact value

def sixteenProps : ArchiveProperties := {dataAlign:=16}
def seventeenMd : ArchiveMd := ⟨1,0o100644,0,0,0,0,0,17⟩

theorem data_segment_aligned_first : ∃ namesize after,
    (archiveFile [97] seventeenMd (zeros 17)).run (.new sixteenProps) = (.ok (),after) ∧
      (fileLead 0 seventeenMd [97] namesize).length % 16 = 0 ∧
      fileLead 0 seventeenMd [97] namesize ++ zeros 17 <+: after.out := by
  have power : ∃ k, 2 ≤ k ∧ sixteenProps.dataAlign.toNat = 2^k := ⟨4,by decide,rfl⟩
  have large : seventeenMd.len > sixteenProps.dataAlign := by decide
  rcases data_segment_aligned power rfl .start [97] large (zeros 17) with ⟨rejected,_⟩ | ⟨fname,namesize,after,trimmed,ran,_,_,kept,lands⟩
  · rcases rejected with ⟨e,failed⟩ | kind
    · cases failed
    · exact absurd rfl kind
  · have name : fname = [97] := by
      cases trimmed
      rfl
    subst name
    rw [if_pos (by decide)] at lands
    change (0 + (fileLead 0 seventeenMd [97] namesize).length) % 16 = 0 at lands
    rw [Nat.zero_add] at lands
    exact ⟨namesize,after,ran,lands,kept⟩

end Rapido.Cpio
