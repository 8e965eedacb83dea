import Rapido.CpioWalk

namespace Rapido.Cpio
open UnixPath Radix Newc
variable {props : ArchiveProperties} {ino : UInt32} {out : List UInt8} {calls : List Call} {entries : List Entry}

theorem trimmedName_mem (member : b ∈ trimmedName p) : b = slash ∨ b ∈ p := by
  rw [trimmedName_eq] at member
  split at member
  · exact (trimBody_mem member).imp_right List.mem_of_mem_drop
  · exact .inr member

theorem trim_no_nul (clean : 0 ∉ p) (trimmed : pathTrimPrefixes p = .ok fname) : 0 ∉ fname := by
  rw [trim_name trimmed]
  intro member
  rcases trimmedName_mem member with separator | inside
  · cases separator
  · exact clean inside

theorem chunks_flatten (fields : List (List UInt8)) (width : ∀ f ∈ fields, f.length = size) :
    chunks size fields.length fields.flatten = fields := by
  induction fields with
  | nil => rfl
  | cons field rest ih =>
    have here := width field (by simp)
    have tail := ih fun f member => width f (List.mem_cons_of_mem _ member)
    simp only [List.length_cons,chunks,List.flatten_cons]
    rw [← here,List.take_left,List.drop_left,here,tail]

theorem field_hex (value : UInt32) (rest : List (List UInt8)) (skipped : list.drop k = fmtHex 8 value.toNat :: rest) :
    (fieldNth k).run list = (.ok value,rest) := by
  have parsed : fromStrRadix 16 (2^32) (fmtHex 8 value.toNat) = some value.toNat :=
    fromStrRadix_fmtHex (by simpa using value.toNat_lt) value.toNat_lt
  simp only [fieldNth,skipped,parsed,UInt32.ofNat_toNat]

theorem namesize_exact (e : Entry) : (UInt32.ofNat e.name.length).toNat = e.name.length := by
  rw [UInt32.toNat_ofNat']
  exact Nat.mod_eq_of_lt e.narrow

-- Decoding the header a writer printed gives back what it printed.
theorem readNewcMd_header (e : Entry) (narrow : e.name.length ≤ PATH_MAX + 1) :
    archiveReadNewcMd (e.header.drop 6) = .ok (e.md,.ofNat e.name.length) := by
  have sized := namesize_exact e
  let fields : List (List UInt8) := [e.ino,e.md.mode,e.md.uid,e.md.gid,e.md.nlink,e.md.mtime,e.md.len,0,0,e.md.rmajor,
    e.md.rminor,.ofNat e.name.length,0].map (fun value : UInt32 => fmtHex 8 value.toNat)
  have body : e.header.drop 6 = fields.flatten := by
    simp [Entry.header,newcHdr,fields,sized]
  have width : ∀ f ∈ fields, f.length = 8 := by
    intro f member
    obtain ⟨value,_,rfl⟩ := List.mem_map.mp member
    exact length_field32 value
  have length : (e.header.drop 6).length = 104 := by rw [List.length_drop,e.length_header]; rfl
  have split : chunksExact 8 (e.header.drop 6) = fields := by
    rw [chunksExact,length,body]
    exact chunks_flatten fields width
  have valid : ¬(UInt32.ofNat e.name.length = 0 ∨ (UInt32.ofNat e.name.length).toNat > PATH_MAX + 1) := by
    rw [← UInt32.toNat_inj,sized]
    have := e.named
    simp only [UInt32.toNat_zero]
    omega
  unfold archiveReadNewcMd newcFields
  rw [split]
  rw [Eff.bind_run_ok (field_hex e.md.mode _ rfl),Eff.bind_run_ok (field_hex e.md.uid _ rfl),
    Eff.bind_run_ok (field_hex e.md.gid _ rfl),Eff.bind_run_ok (field_hex e.md.nlink _ rfl),
    Eff.bind_run_ok (field_hex e.md.mtime _ rfl),Eff.bind_run_ok (field_hex e.md.len _ rfl),
    Eff.bind_run_ok (field_hex e.md.rmajor _ rfl),Eff.bind_run_ok (field_hex e.md.rminor _ rfl),
    Eff.bind_run_ok (field_hex (.ofNat e.name.length) _ rfl),if_neg valid]
  rfl

-- The name buffer next() hands out for an entry.
def nameBuffer (e : Entry) : List UInt8 := e.name ++ zeros (PATH_MAX + 1 - e.name.length)

theorem nameBuffer_take (e : Entry) : (nameBuffer e).take (e.name.length - 1) = e.name.take (e.name.length - 1) := by
  rw [nameBuffer,List.take_append_of_le_length (Nat.sub_le _ _)]

theorem next_encode (e : Entry) (rest : List UInt8) (narrow : e.name.length ≤ PATH_MAX + 1)
    (here : r.data.drop r.pos = e.encode ++ rest) (inside : r.pos ≤ r.data.length) (bounded : r.data.length < 2^63) :
    next r = (if e.name.take (e.name.length - 1) = trailerName then .done
      else .item (.ok ⟨e.md,.ofNat e.name.length,nameBuffer e⟩),⟨r.data,r.pos + e.encode.length⟩) := by
  have sized := namesize_exact e
  have total : r.pos + e.encode.length + rest.length = r.data.length := by
    have length := congrArg List.length here
    rw [List.length_drop,List.length_append] at length
    omega
  have encoded : e.encode.length = NEWC_HDR_LEN + e.name.length +
      (pad4 (NEWC_HDR_LEN + e.name.length) + e.md.len.toNat + pad4 e.md.len.toNat) := by
    simp only [Entry.encode,List.length_append,e.length_header,length_zeros,e.sized]
    omega
  have header : (r.data.drop r.pos).take NEWC_HDR_LEN = e.header := by
    rw [here,Entry.encode,List.append_assoc,List.append_assoc,← e.length_header,List.take_left]
  have name : (r.data.drop (r.pos + NEWC_HDR_LEN)).take e.name.length = e.name := by
    rw [← List.drop_drop,here,Entry.encode,List.append_assoc,List.append_assoc,← e.length_header,List.drop_left,
      List.append_assoc,List.take_left]
  have magic : e.header.take 6 = [48,55,48,55,48,49] := rfl
  unfold next
  simp only [Reader.readExact]
  rw [if_pos (by omega)]
  simp only [header,magic,if_true,readNewcMd_header e narrow]
  unfold nextEntry
  simp only [Reader.readExact,sized,seeklen_eq,Reader.seekCurrent]
  rw [if_neg (Nat.not_lt.mpr narrow),if_pos (by omega)]
  simp only [name]
  rw [if_neg (by omega),if_pos (by omega)]
  have nonzero : UInt32.ofNat e.name.length ≠ 0 := by
    rw [ne_eq,← UInt32.toNat_inj,sized]
    have := e.named
    simp only [UInt32.toNat_zero]
    omega
  have buffer : e.name ++ (zeros (PATH_MAX + 1)).drop e.name.length = nameBuffer e := by
    unfold nameBuffer zeros
    rw [List.drop_replicate]
  have taken := nameBuffer_take e
  have moved : r.pos + NEWC_HDR_LEN + e.name.length + (pad4 (NEWC_HDR_LEN + e.name.length) + e.md.len.toNat +
      pad4 e.md.len.toNat) = r.pos + e.encode.length := by omega
  simp only [if_neg nonzero,buffer,taken,moved]
  split <;> rfl

def runCalls : List Call → Write Unit
  | [] => pure ()
  | c :: rest => do
    c.run
    runCalls rest

-- The entries a run of calls writes, each described by its own call.
inductive Wrote (props : ArchiveProperties) : Nat → UInt32 → List Call → List Entry → Prop where
  | nil {written : Nat} {ino : UInt32} : Wrote props written ino [] []
  | cons {written : Nat} {ino : UInt32} {c : Call} {e : Entry} {calls : List Call} {entries : List Entry}
      (here : Describes props written ino c e) (aligned : written % 4 = 0)
      (rest : Wrote props (written + e.encode.length) (c.nextIno ino) calls entries) :
      Wrote props written ino (c :: calls) (e :: entries)

theorem runCalls_wrote (ready : Aligned props) (aligned : out.length % 4 = 0)
    (ran : (runCalls calls).run (synced props ino out) = (.ok (),after)) :
    ∃ entries ino', Wrote props out.length ino calls entries ∧
      after = synced props ino' (out ++ entries.flatMap Entry.encode) ∧ after.out.length % 4 = 0 := by
  induction calls generalizing ino out with
  | nil =>
    cases ran
    exact ⟨[],ino,.nil,by simp,aligned⟩
  | cons c calls ih =>
    obtain ⟨_,middle,first,rest⟩ := Eff.bind_ok.mp ran
    rcases admitted_step ready aligned first (.inl rfl) with ⟨_,_,e,failed,_⟩ | ⟨_,entry,_,described,rfl⟩
    · cases failed
    · have whole := entry.encode_aligned
      obtain ⟨entries,ino',wrote,equal,finish⟩ := ih (by simp only [List.length_append]; omega) rest
      rw [List.length_append] at wrote
      exact ⟨entry :: entries,ino',.cons described aligned wrote,by rw [equal]; simp,finish⟩

theorem Wrote.length (wrote : Wrote props written ino calls entries) : entries.length = calls.length := by
  induction wrote with
  | nil => rfl
  | cons here aligned rest ih => rw [List.length_cons,List.length_cons,ih]

-- What the walker has to hand back for a call.
def Carries : Call → ArchiveEnt → Prop
  | .path p md,ent => ent.md = {md with len:=0} ∧
      (0 ∉ p → pathTrimPrefixes p = .ok (ent.name.takeWhile (· ≠ 0)))
  | .symlink p md tgt,ent => ent.md = {md with len:=ent.md.len} ∧ ent.md.len.toNat = tgt.length ∧
      (0 ∉ p → pathTrimPrefixes p = .ok (ent.name.takeWhile (· ≠ 0)))
  | .file p md _,ent => ent.md = md ∧
      (0 ∉ p → pathTrimPrefixes p = .ok (ent.name.takeWhile (· ≠ 0)))
  | .trailer,_ => False

def Call.Named : Call → List UInt8 → Prop
  | .path p _,fname => pathTrimPrefixes p = .ok fname
  | .symlink p _ _,fname => pathTrimPrefixes p = .ok fname
  | .file p _ _,fname => pathTrimPrefixes p = .ok fname
  | .trailer,_ => False

instance : ∀ (c : Call) (fname : List UInt8), Decidable (c.Named fname)
  | .path p _,fname => inferInstanceAs (Decidable (pathTrimPrefixes p = .ok fname))
  | .symlink p _ _,fname => inferInstanceAs (Decidable (pathTrimPrefixes p = .ok fname))
  | .file p _ _,fname => inferInstanceAs (Decidable (pathTrimPrefixes p = .ok fname))
  | .trailer,_ => inferInstanceAs (Decidable False)

theorem takeWhile_name (clean : 0 ∉ fname) (n : Nat) : (fname ++ zeros (n + 1)).takeWhile (· ≠ 0) = fname := by
  have nonzero : ∀ b ∈ fname, decide (b ≠ 0) = true := by
    intro b member
    exact decide_eq_true fun zero => clean (zero ▸ member)
  rw [List.takeWhile_append_of_pos nonzero]
  simp [zeros,List.replicate_succ]

-- A name field ends in its terminator, so the walker's comparison sees the
-- trimmed name and at least as many zeros as were injected.
theorem not_trailer (other : fname ≠ trailerName) (seek : Nat) :
    (fname ++ zeros (1 + seek)).take ((fname ++ zeros (1 + seek)).length - 1) ≠ trailerName := by
  have shape : (fname ++ zeros (1 + seek)).take ((fname ++ zeros (1 + seek)).length - 1) = fname ++ zeros seek := by
    rw [Nat.add_comm,zeros_add,← List.append_assoc,List.length_append,length_zeros,Nat.add_sub_cancel,List.take_left]
  rw [shape]
  cases seek with
  | zero => simpa [zeros] using other
  | succ seek =>
    intro same
    have member : 0 ∈ trailerName := by rw [← same]; simp [zeros]
    exact absurd member (by decide)

variable {c : Call} {e : Entry}

theorem described_name (ready : Aligned props) (aligned : written % 4 = 0) (limit : props.namesizeMax.toNat ≤ 4097)
    (body : c ≠ .trailer) (described : Describes props written ino c e) :
    ∃ fname seek, c.Named fname ∧ e.name = fname ++ zeros (1 + seek) ∧ e.name.length ≤ PATH_MAX + 1 := by
  cases c with
  | trailer => exact absurd rfl body
  | path p md =>
    obtain ⟨_,_,fname,trimmed,named⟩ := described
    have short := trim_short trimmed
    exact ⟨fname,0,trimmed,named,by rw [named,List.length_append,length_zeros]; omega⟩
  | symlink p md tgt =>
    obtain ⟨_,_,_,fname,trimmed,named⟩ := described
    have short := trim_short trimmed
    exact ⟨fname,0,trimmed,named,by rw [named,List.length_append,length_zeros]; omega⟩
  | file p md data =>
    obtain ⟨_,_,_,fname,seek,trimmed,sought,named⟩ := described
    have short := trim_short trimmed
    obtain ⟨seek',same,lands⟩ := seek_fits ready aligned short md ino
    cases Except.ok.inj (sought.symm.trans same)
    refine ⟨fname,seek.toNat,trimmed,named,?_⟩
    rw [named,List.length_append,length_zeros]
    by_cases positive : seek > 0
    · have fits := (lands positive).2
      simp only [PATH_MAX]
      omega
    · have none : seek.toNat = 0 := Nat.le_zero.mp (Nat.le_of_not_lt positive)
      omega

theorem described_carries (body : c ≠ .trailer) (described : Describes props written ino c e) :
    Carries c ⟨e.md,.ofNat e.name.length,nameBuffer e⟩ := by
  have visible : ∀ fname n, 0 ∉ fname → e.name = fname ++ zeros (1 + n) → (nameBuffer e).takeWhile (· ≠ 0) = fname := by
    intro fname n clean named
    rw [nameBuffer,named,List.append_assoc,← zeros_add,Nat.add_assoc,Nat.add_comm 1]
    exact takeWhile_name clean _
  cases c with
  | trailer => exact absurd rfl body
  | path p md =>
    obtain ⟨_,same,fname,trimmed,named⟩ := described
    exact ⟨same,fun clean => by rw [visible fname 0 (trim_no_nul clean trimmed) named,trimmed]⟩
  | symlink p md tgt =>
    obtain ⟨_,same,data,fname,trimmed,named⟩ := described
    refine ⟨by simp only [same],by rw [← e.sized,data],fun clean => ?_⟩
    rw [visible fname 0 (trim_no_nul clean trimmed) named,trimmed]
  | file p md data =>
    obtain ⟨_,same,_,fname,seek,trimmed,_,named⟩ := described
    exact ⟨same,fun clean => by rw [visible fname _ (trim_no_nul clean trimmed) named,trimmed]⟩

def entOf (e : Entry) : ArchiveEnt := ⟨e.md,.ofNat e.name.length,nameBuffer e⟩

-- The entries up to the first one that the walker takes for the trailer.
def shown (entries : List Entry) : List Entry := entries.takeWhile fun e => decide (e.name.take (e.name.length - 1) ≠ trailerName)

theorem shown_cons (kept : e.name.take (e.name.length - 1) ≠ trailerName) (entries : List Entry) :
    shown (e :: entries) = e :: shown entries := by simp [shown,kept]

-- From a reader at the first entry on, the k-th call hands back the k-th entry.
theorem walk_entries (data rest : List UInt8) (bounded : data.length < 2^63) (entries : List Entry)
    (narrow : ∀ e ∈ entries, e.name.length ≤ PATH_MAX + 1) (start : Nat) (inside : (readerAt data start).pos ≤ data.length)
    (here : data.drop (readerAt data start).pos = entries.flatMap Entry.encode ++ (trailerEntry.encode ++ rest)) :
    (∀ k e, (shown entries)[k]? = some e → stepAt data (start + k) = .item (.ok (entOf e))) ∧
      stepAt data (start + (shown entries).length) = .done := by
  have same := readerAt_data data start
  induction entries generalizing start with
  | nil =>
    refine ⟨by simp [shown],?_⟩
    have walked := next_encode trailerEntry rest (by decide) (r:=readerAt data start)
      (by rw [same,here]; simp) (by rw [same]; exact inside) (by rw [same]; exact bounded)
    rw [show (shown []).length = 0 from rfl,Nat.add_zero,stepAt,walked]
    rfl
  | cons e entries ih =>
    have walked := next_encode e (entries.flatMap Entry.encode ++ (trailerEntry.encode ++ rest)) (narrow e List.mem_cons_self)
      (r:=readerAt data start) (by rw [same,here]; simp) (by rw [same]; exact inside) (by rw [same]; exact bounded)
    by_cases last : e.name.take (e.name.length - 1) = trailerName
    · rw [if_pos last] at walked
      have none : shown (e :: entries) = [] := by simp [shown,last]
      refine ⟨by simp [none],?_⟩
      rw [none,List.length_nil,Nat.add_zero,stepAt,walked]
    · rw [if_neg last] at walked
      have step : stepAt data start = .item (.ok (entOf e)) := by
        rw [stepAt,walked]
        rfl
      have moved : (readerAt data (start+1)).pos = (readerAt data start).pos + e.encode.length := by
        rw [readerAt,walked]
      have further : data.drop (readerAt data (start+1)).pos = entries.flatMap Entry.encode ++ (trailerEntry.encode ++ rest) := by
        rw [moved,← List.drop_drop,here,List.flatMap_cons,List.append_assoc,List.drop_left]
      have room : (readerAt data (start+1)).pos ≤ data.length := by
        have length := congrArg List.length here
        simp only [List.length_drop,List.flatMap_cons,List.length_append] at length
        omega
      obtain ⟨later,ends⟩ := ih (fun e member => narrow e (List.mem_cons_of_mem _ member)) (start+1) room further
        (readerAt_data data (start+1))
      rw [shown_cons last]
      refine ⟨?_,by rw [List.length_cons,← Nat.add_assoc,Nat.add_right_comm]; exact ends⟩
      intro k found at_
      cases k with
      | zero =>
        cases Option.some.inj at_
        exact step
      | succ k => rw [← later k found at_,Nat.add_right_comm,Nat.add_assoc]

theorem encoded_lists (rest : List UInt8) (entries : List Entry) (narrow : ∀ e ∈ entries, e.name.length ≤ PATH_MAX + 1)
    (bounded : (entries.flatMap Entry.encode ++ (trailerEntry.encode ++ rest)).length < 2^63) :
    Lists (entries.flatMap Entry.encode ++ (trailerEntry.encode ++ rest)) ((shown entries).map entOf) := by
  obtain ⟨items,ends⟩ := walk_entries _ rest bounded entries narrow 0 (Nat.zero_le _) rfl
  refine ⟨fun k ent found => ?_,by rwa [Nat.zero_add,← List.length_map (f:=entOf)] at ends⟩
  rw [List.getElem?_map,Option.map_eq_some_iff] at found
  obtain ⟨e,at_,rfl⟩ := found
  rw [← items k e at_,Nat.zero_add]

-- A call whose name is not the trailer's stands behind each entry.
theorem walk_wrote (ready : Aligned props) (limit : props.namesizeMax.toNat ≤ 4097)
    (bodies : ∀ c ∈ calls, c ≠ .trailer) (others : ∀ c ∈ calls, ¬c.Named trailerName) (wrote : Wrote props written ino calls entries) :
    (∀ e ∈ entries, e.name.length ≤ PATH_MAX + 1) ∧ shown entries = entries ∧
      ∀ (k : Nat) c, calls[k]? = some c → ∃ e : Entry, entries[k]? = some e ∧ Carries c (entOf e) := by
  induction wrote with
  | nil => exact ⟨nofun,rfl,nofun⟩
  | @cons written ino c e calls entries described aligned rest ih =>
    have body := bodies c List.mem_cons_self
    obtain ⟨fname,seek,named,shape,narrow⟩ := described_name ready aligned limit body described
    have other : fname ≠ trailerName := fun equal => others c List.mem_cons_self (equal ▸ named)
    have kept : e.name.take (e.name.length - 1) ≠ trailerName := by
      rw [shape]
      exact not_trailer other seek
    obtain ⟨short,all,carried⟩ := ih (fun c member => bodies c (List.mem_cons_of_mem _ member))
      fun c member => others c (List.mem_cons_of_mem _ member)
    refine ⟨fun d inside => ?_,?_,fun k call at_ => ?_⟩
    · rcases List.mem_cons.mp inside with rfl | later
      · exact narrow
      · exact short d later
    · rw [shown_cons kept,all]
    · cases k with
      | zero =>
        cases Option.some.inj at_
        exact ⟨e,rfl,described_carries body described⟩
      | succ k => exact carried k call at_

theorem archive_roundtrip (aligned : props.initialDataOff.toNat % 4 = 0) (multiple : props.dataAlign.toNat % 4 = 0)
    (limit : props.namesizeMax.toNat ≤ 4097) (bodies : ∀ c ∈ calls, c ≠ .trailer)
    (others : ∀ c ∈ calls, ¬c.Named trailerName)
    (ran : (runCalls calls).run (.new props) = (.ok (),before)) (ended : archiveTrailer.run before = (.ok total,after))
    (bounded : props.initialDataOff.toNat + after.out.length < 2^63) :
    (∀ k c, calls[k]? = some c → ∃ ent, stepAt after.out k = .item (.ok ent) ∧ Carries c ent) ∧
      stepAt after.out calls.length = .done := by
  have ready : Aligned props := ⟨aligned,multiple⟩
  have fresh : Archive.new props = synced props props.initialIno [] := by
    simp [Archive.new,ArchiveState.new,synced]
  rw [fresh] at ran
  obtain ⟨entries,ino,wrote,rfl,finish⟩ := runCalls_wrote ready rfl ran
  obtain ⟨_,rfl⟩ := Prod.mk.inj (ended.symm.trans (archiveTrailer_synced finish))
  obtain ⟨narrow,all,carried⟩ := walk_wrote ready limit bodies others wrote
  have lists := encoded_lists [] entries narrow (by simp only [synced,List.nil_append,List.append_nil] at bounded ⊢; omega)
  rw [all,List.append_nil] at lists
  simp only [synced,List.nil_append]
  refine ⟨fun k c at_ => ?_,by rw [← wrote.length,← List.length_map (f:=entOf)]; exact lists.ends⟩
  obtain ⟨e,found,same⟩ := carried k c at_
  exact ⟨entOf e,lists.items k (entOf e) (by rw [List.getElem?_map,found]; rfl),same⟩

-- a directory, a link in it and a file whose data is moved to a boundary of 8
def sampleProps : ArchiveProperties := {dataAlign:=8}
def sampleCalls : List Call := [.path [47,97] ⟨2,0o040755,0,0,0,0,0,0⟩,.symlink [97,47,98] ⟨1,0o120777,0,0,0,0,0,1⟩ [99],
  .file [97,47,99] ⟨1,0o100644,0,0,7,0,0,9⟩ [1,2,3,4,5,6,7,8,9]]
def sampleRun : Except IoError Unit × Archive := (runCalls sampleCalls).run (.new sampleProps)

theorem archive_roundtrip_three : ∃ ent, stepAt (archiveTrailer.run sampleRun.2).2.out 2 = .item (.ok ent) ∧
    Carries (.file [97,47,99] ⟨1,0o100644,0,0,7,0,0,9⟩ [1,2,3,4,5,6,7,8,9]) ent := by
  have ran : (runCalls sampleCalls).run (.new sampleProps) = (.ok (),sampleRun.2) := by decide +kernel
  have ended : archiveTrailer.run sampleRun.2 = (.ok 488,(archiveTrailer.run sampleRun.2).2) := by decide +kernel
  exact (archive_roundtrip (by decide) (by decide) (by decide) (by decide) (by decide +kernel) ran ended
    (by decide +kernel)).1 2 _ rfl

end Rapido.Cpio
