import Rapido.CpioAccounting

-- src/cpio: the walker over an archive's bytes.
namespace Rapido.Cpio
open UnixPath Radix Newc
variable {hdrMd : List UInt8} {md : ArchiveMd} {namesize : UInt32} {r : Reader}

structure ArchiveEnt where
  md : ArchiveMd
  namesize : UInt32
  name : List UInt8
deriving DecidableEq, Repr

def chunks (size : Nat) : Nat → List UInt8 → List (List UInt8)
  | 0,_ => []
  | count+1,bytes => bytes.take size :: chunks size count (bytes.drop size)

-- A remainder shorter than `size` is dropped.
def chunksExact (size : Nat) (bytes : List UInt8) : List (List UInt8) := chunks size (bytes.length / size) bytes

inductive Fault where
  | panic
  | err (e : IoError)
deriving DecidableEq, Repr

-- md_iter.nth(k).unwrap()?, with next() as nth(0). Bytes that are not UTF-8
-- hold no hex digit, so from_utf8 fails only where the number does.
def fieldNth (k : Nat) : Eff Fault (List (List UInt8)) UInt32 := ⟨fun chunks => match chunks.drop k with
  | [] => (.error .panic,[])
  | chunk :: rest => match fromStrRadix 16 (2^32) chunk with
    | some value => (.ok (.ofNat value),rest)
    | none => (.error (.err ⟨.invalidData,"invalid hdr field"⟩),rest)⟩

def newcFields : Eff Fault (List (List UInt8)) (ArchiveMd × UInt32) := do
  let mode ← fieldNth 1
  let uid ← fieldNth 0
  let gid ← fieldNth 0
  let nlink ← fieldNth 0
  let mtime ← fieldNth 0
  let len ← fieldNth 0
  let rmajor ← fieldNth 2
  let rminor ← fieldNth 0
  let namesize ← fieldNth 0
  if namesize = 0 ∨ namesize.toNat > PATH_MAX + 1 then Eff.fail (.err ⟨.invalidData,"invalid namesize"⟩)
  else pure ({mode,uid,gid,nlink,mtime,len,rmajor,rminor},namesize)

def archiveReadNewcMd (hdrMd : List UInt8) : Except Fault (ArchiveMd × UInt32) :=
  (newcFields.run (chunksExact 8 hdrMd)).1

inductive Next where
  | panicked
  | done
  | item (result : Except IoError ArchiveEnt)

-- The part of next() after the header fields have been decoded.
def nextEntry (md : ArchiveMd) (namesize : UInt32) (r : Reader) : Next × Reader :=
  if namesize.toNat > PATH_MAX + 1 then (.panicked,r) else
  match r.readExact namesize.toNat with
  | (.error e,r) => (.item (.error e),r)
  | (.ok name,r) =>
    let buf := name ++ (zeros (PATH_MAX + 1)).drop name.length
    let npad := archivePadlen (.ofNat NEWC_HDR_LEN + namesize.toUInt64) 4
    let dlen := md.len.toUInt64
    let dpad := archivePadlen dlen 4
    let seeklen := npad + dlen + dpad
    if seeklen.toNat ≥ 2^63 then (.panicked,r) else
    match r.seekCurrent seeklen.toNat with
    | (.error e,r) => (.item (.error e),r)
    | (.ok (),r) =>
      if namesize = 0 then (.panicked,r)
      else if buf.take (namesize.toNat - 1) = trailerName then (.done,r)
      else (.item (.ok ⟨md,namesize,buf⟩),r)

-- ArchiveWalker::next
def next (r : Reader) : Next × Reader :=
  match r.readExact NEWC_HDR_LEN with
  | (.error e,r) => if e.kind = .unexpectedEof then (.done,r) else (.item (.error e),r)
  | (.ok hdr,r) =>
    if hdr.take 6 = [48,55,48,55,48,49] then
      match archiveReadNewcMd (hdr.drop 6) with
      | .error .panic => (.panicked,r)
      | .error (.err e) => (.item (.error e),r)
      | .ok (md,namesize) => nextEntry md namesize r
    else (.item (.error ⟨.invalidInput,"invalid newc hdr"⟩),r)

def archiveWalk (data : List UInt8) : Reader := ⟨data,0⟩

theorem length_chunks (size count : Nat) (bytes : List UInt8) : (chunks size count bytes).length = count := by
  induction count generalizing bytes with
  | zero => rfl
  | succ count ih => rw [chunks,List.length_cons,ih]

-- A field reader that finds enough chunks never unwraps a None.
def Unpanicked (needed : Nat) (reader : Eff Fault (List (List UInt8)) α) : Prop :=
  ∀ chunks, needed ≤ chunks.length → (reader.run chunks).1 ≠ .error .panic

theorem field_unpanicked {reader : UInt32 → Eff Fault (List (List UInt8)) α}
    (rest : ∀ value, Unpanicked needed (reader value)) : Unpanicked (k + 1 + needed) (fieldNth k >>= reader) := by
  intro chunks room
  have some : chunks.drop k ≠ [] := by
    intro empty
    have := List.drop_eq_nil_iff.mp empty
    omega
  obtain ⟨chunk,tail,equal⟩ := List.exists_cons_of_ne_nil some
  rw [Eff.bind_run]
  simp only [fieldNth,equal]
  cases fromStrRadix 16 (2^32) chunk with
  | none => simp
  | some value =>
    have length := congrArg List.length equal
    rw [List.length_drop,List.length_cons] at length
    exact rest _ _ (by omega)

theorem readNewcMd_unpanicked (whole : hdrMd.length = 104) : archiveReadNewcMd hdrMd ≠ .error .panic := by
  have count : (chunksExact 8 hdrMd).length = 13 := by rw [chunksExact,length_chunks,whole]
  have fields := field_unpanicked (k:=1) fun mode => field_unpanicked (k:=0) fun uid => field_unpanicked (k:=0) fun gid =>
    field_unpanicked (k:=0) fun nlink => field_unpanicked (k:=0) fun mtime => field_unpanicked (k:=0) fun len =>
    field_unpanicked (k:=2) fun rmajor => field_unpanicked (k:=0) fun rminor => field_unpanicked (k:=0) fun namesize =>
    (show Unpanicked 0 (if namesize = 0 ∨ namesize.toNat > PATH_MAX + 1 then Eff.fail (.err ⟨.invalidData,"invalid namesize"⟩)
      else pure ((⟨nlink,mode,uid,gid,mtime,rmajor,rminor,len⟩ : ArchiveMd),namesize)) by
      intro chunks _
      split <;> simp)
  exact fields _ (by rw [count]; decide)

theorem readNewcMd_namesize (decoded : archiveReadNewcMd hdrMd = .ok (md,namesize)) :
    namesize ≠ 0 ∧ namesize.toNat ≤ PATH_MAX + 1 := by
  unfold archiveReadNewcMd at decoded
  cases ran : newcFields.run (chunksExact 8 hdrMd) with
  | mk result after =>
    rw [ran] at decoded
    simp only at decoded
    subst decoded
    unfold newcFields at ran
    iterate 8 obtain ⟨_,_,_,ran⟩ := Eff.bind_ok.mp ran
    obtain ⟨size,_,_,ran⟩ := Eff.bind_ok.mp ran
    split at ran
    · cases ran
    · rename_i valid
      cases ran
      exact ⟨fun zero => valid (.inl zero),Nat.le_of_not_lt fun large => valid (.inr large)⟩

-- The furthest one call can move: header, name, padding, data, padding.
def REACH : Nat := NEWC_HDR_LEN + (PATH_MAX + 1) + 3 + (2^32 - 1) + 3

-- Everything one call of next() can do.
inductive Walked (r : Reader) : Next × Reader → Prop where
  | eof {q : Nat} (short : r.data.length < r.pos + NEWC_HDR_LEN) : Walked r (.done,⟨r.data,q⟩)
  | trailer {q : Nat} (room : r.pos + NEWC_HDR_LEN ≤ r.data.length) (moved : r.pos + NEWC_HDR_LEN ≤ q) :
      Walked r (.done,⟨r.data,q⟩)
  | failed {e : IoError} {q : Nat} (room : r.pos + NEWC_HDR_LEN ≤ r.data.length) (moved : r.pos + NEWC_HDR_LEN ≤ q)
      (near : q ≤ r.pos + REACH) : Walked r (.item (.error e),⟨r.data,q⟩)
  | entry {md : ArchiveMd} {size : UInt32} {q : Nat} (room : r.pos + NEWC_HDR_LEN + size.toNat ≤ r.data.length)
      (moved : r.pos + NEWC_HDR_LEN ≤ q) (near : q ≤ r.pos + REACH) (named : size ≠ 0) (narrow : size.toNat ≤ PATH_MAX + 1) :
      Walked r (.item (.ok ⟨md,size,(r.data.drop (r.pos + NEWC_HDR_LEN)).take size.toNat ++
        zeros (PATH_MAX + 1 - size.toNat)⟩),⟨r.data,q⟩)

theorem header_reach : NEWC_HDR_LEN ≤ REACH := by decide +kernel

-- The seek over padding, data and padding again.
theorem seeklen_eq (md : ArchiveMd) (namesize : UInt32) :
    (archivePadlen (.ofNat NEWC_HDR_LEN + namesize.toUInt64) 4 + md.len.toUInt64 + archivePadlen md.len.toUInt64 4).toNat =
      pad4 (NEWC_HDR_LEN + namesize.toNat) + md.len.toNat + pad4 md.len.toNat := by
  have widened : ∀ n : UInt32, n.toUInt64 = .ofNat n.toNat := fun n => by
    apply UInt64.toNat_inj.mp
    have limit := n.toNat_lt
    rw [UInt32.toNat_toUInt64,UInt64.toNat_ofNat']
    omega
  have limit := md.len.toNat_lt
  have one := pad4_lt (NEWC_HDR_LEN + namesize.toNat)
  have two := pad4_lt md.len.toNat
  rw [widened,widened,← UInt64.ofNat_add,padlen_four,padlen_four,← UInt64.ofNat_add,← UInt64.ofNat_add,UInt64.toNat_ofNat']
  omega

theorem nextEntry_walked (md : ArchiveMd) (room : r.pos + NEWC_HDR_LEN ≤ r.data.length) (named : namesize ≠ 0)
    (narrow : namesize.toNat ≤ PATH_MAX + 1) :
    Walked r (nextEntry md namesize ⟨r.data,r.pos + NEWC_HDR_LEN⟩) := by
  have seek := seeklen_eq md namesize
  have limit := md.len.toNat_lt
  have one := pad4_lt (NEWC_HDR_LEN + namesize.toNat)
  have two := pad4_lt md.len.toNat
  have reach : r.pos + NEWC_HDR_LEN + namesize.toNat + (pad4 (NEWC_HDR_LEN + namesize.toNat) + md.len.toNat +
      pad4 md.len.toNat) ≤ r.pos + REACH := by unfold REACH; omega
  unfold nextEntry
  rw [if_neg (Nat.not_lt.mpr narrow)]
  by_cases whole : r.pos + NEWC_HDR_LEN + namesize.toNat ≤ r.data.length
  · have taken : ((r.data.drop (r.pos + NEWC_HDR_LEN)).take namesize.toNat).length = namesize.toNat := by
      rw [List.length_take,List.length_drop]; omega
    have rest : (zeros (PATH_MAX + 1)).drop namesize.toNat = zeros (PATH_MAX + 1 - namesize.toNat) :=
      List.drop_replicate ..
    have small : ¬(pad4 (NEWC_HDR_LEN + namesize.toNat) + md.len.toNat + pad4 md.len.toNat ≥ 2^63) := by omega
    simp only [Reader.readExact,if_pos whole,seek,if_neg small,Reader.seekCurrent,taken,rest]
    by_cases sought : r.pos + NEWC_HDR_LEN + namesize.toNat + (pad4 (NEWC_HDR_LEN + namesize.toNat) + md.len.toNat +
        pad4 md.len.toNat) < 2^63
    · simp only [if_pos sought,if_neg named]
      split
      · exact .trailer room (by omega)
      · exact .entry whole (by omega) reach named narrow
    · simp only [if_neg sought]
      exact .failed room (by omega) (by omega)
  · simp only [Reader.readExact,if_neg whole]
    have cut : r.data.length ≤ r.pos + REACH := by omega
    exact .failed room (Nat.le_max_left _ _) (Nat.max_le.mpr ⟨Nat.add_le_add_left header_reach _,cut⟩)

theorem next_walked (r : Reader) : Walked r (next r) := by
  unfold next
  by_cases room : r.pos + NEWC_HDR_LEN ≤ r.data.length
  · have whole : ((r.data.drop r.pos).take NEWC_HDR_LEN).length = NEWC_HDR_LEN := by
      rw [List.length_take,List.length_drop]; omega
    simp only [Reader.readExact,if_pos room]
    split
    · cases decoded : archiveReadNewcMd (((r.data.drop r.pos).take NEWC_HDR_LEN).drop 6) with
      | ok pair =>
        obtain ⟨named,narrow⟩ := readNewcMd_namesize decoded
        exact nextEntry_walked pair.1 room named narrow
      | error fault =>
        cases fault with
        | panic => exact absurd decoded (readNewcMd_unpanicked (by rw [List.length_drop,whole]; rfl))
        | err e => exact .failed room (Nat.le_refl _) (Nat.add_le_add_left header_reach _)
    · exact .failed room (Nat.le_refl _) (Nat.add_le_add_left header_reach _)
  · simp only [Reader.readExact,if_neg room]
    exact .eof (by omega)

-- The reader before the k-th call, and what that call returns.
def readerAt (data : List UInt8) : Nat → Reader
  | 0 => archiveWalk data
  | k+1 => (next (readerAt data k)).2
def stepAt (data : List UInt8) (k : Nat) : Next := (next (readerAt data k)).1

-- The walker hands these entries out in order, and then none.
structure Lists (data : List UInt8) (ents : List ArchiveEnt) : Prop where
  items : ∀ k ent, ents[k]? = some ent → stepAt data k = .item (.ok ent)
  ends : stepAt data ents.length = .done

theorem Lists.step (lists : Lists data (front ++ ent :: back)) :
    next (readerAt data front.length) = (.item (.ok ent),readerAt data (front.length + 1)) :=
  Prod.ext (lists.items front.length ent (by simp)) rfl

theorem Lists.last (lists : Lists data ents) : ∃ r, next (readerAt data ents.length) = (.done,r) := ⟨_,Prod.ext lists.ends rfl⟩

def ArchiveEnt.visible (ent : ArchiveEnt) : List UInt8 := ent.name.take (ent.namesize.toNat - 1)

theorem next_data (r : Reader) : (next r).2.data = r.data := by
  have walked := next_walked r
  generalize next r = pair at walked
  cases walked <;> rfl

theorem readerAt_data (data : List UInt8) (k : Nat) : (readerAt data k).data = data := by
  induction k with
  | zero => rfl
  | succ k ih => rw [readerAt,next_data,ih]

theorem step_walked (data : List UInt8) (k : Nat) : Walked (readerAt data k) (stepAt data k,readerAt data (k+1)) :=
  next_walked (readerAt data k)

-- As long as every call returned Some, each of them ate a whole header.
theorem items_advance (items : ∀ j < k, ∃ item, stepAt data j = .item item) :
    NEWC_HDR_LEN * k ≤ (readerAt data k).pos := by
  induction k with
  | zero => exact Nat.zero_le _
  | succ k ih =>
    have before := ih fun j small => items j (by omega)
    obtain ⟨item,returned⟩ := items k (by omega)
    have walked := step_walked data k
    rw [returned] at walked
    generalize readerAt data (k+1) = after at walked ⊢
    cases walked with
    | failed room moved near => simp only [Nat.mul_succ]; omega
    | entry room moved near named narrow => simp only [Nat.mul_succ]; omega

theorem item_room (returned : stepAt data k = .item item) :
    (readerAt data k).pos + NEWC_HDR_LEN ≤ data.length := by
  have walked := step_walked data k
  have same := readerAt_data data k
  rw [returned] at walked
  generalize readerAt data (k+1) = after at walked
  cases walked with
  | failed room moved near => rwa [same] at room
  | entry room moved near named narrow => rw [same] at room; omega

-- The calls return None before their headers outgrow the input.
theorem done_within (data : List UInt8) :
    ∃ k ≤ (data.length + 109) / 110, stepAt data k = .done ∧ ∀ j < k, ∃ item, stepAt data j = .item item := by
  by_contra never
  push Not at never
  have items : ∀ k, k ≤ (data.length + 109) / 110 + 1 → ∀ j < k, ∃ item, stepAt data j = .item item := by
    intro k
    induction k with
    | zero => intro _ j small; exact absurd small (Nat.not_lt_zero _)
    | succ k ih =>
      intro bound j small
      have earlier := ih (by omega)
      rcases Nat.lt_succ_iff_lt_or_eq.mp small with before | rfl
      · exact earlier j before
      · have walked := step_walked data j
        cases returned : stepAt data j with
        | item item => exact ⟨item,rfl⟩
        | panicked =>
          rw [returned] at walked
          generalize readerAt data (j+1) = after at walked
          cases walked
        | done =>
          obtain ⟨i,below,none⟩ := never j (by omega) returned
          obtain ⟨item,some⟩ := earlier i below
          exact absurd some (none item)
  -- one call more than fits would have started past the end
  have last := items ((data.length + 109) / 110 + 1) (Nat.le_refl _) ((data.length + 109) / 110) (Nat.lt_succ_self _)
  obtain ⟨item,returned⟩ := last
  have room := item_room returned
  have moved := items_advance (k:=(data.length + 109) / 110) fun j small => items _ (Nat.le_succ _) j small
  simp only [NEWC_HDR_LEN] at room moved
  omega

theorem walker_bounded (data : List UInt8) :
    (∀ k, stepAt data k ≠ .panicked) ∧
    (∀ k item, stepAt data k = .item item → (readerAt data k).pos + 110 ≤ (readerAt data (k+1)).pos ∧
      (readerAt data (k+1)).pos ≤ (readerAt data k).pos + (110 + 4097 + 3 + (2^32 - 1) + 3)) ∧
    (∃ k ≤ (data.length + 109) / 110, stepAt data k = .done ∧ ∀ j < k, ∃ item, stepAt data j = .item item) ∧
    (∀ k ent, stepAt data k = .item (.ok ent) → 1 ≤ ent.namesize.toNat ∧ ent.namesize.toNat ≤ 4097 ∧
      (readerAt data k).pos + 110 + ent.namesize.toNat ≤ data.length ∧
      ent.name = (data.drop ((readerAt data k).pos + 110)).take ent.namesize.toNat ++ zeros (4097 - ent.namesize.toNat)) := by
  refine ⟨?_,?_,done_within data,?_⟩
  · intro k returned
    have walked := step_walked data k
    rw [returned] at walked
    generalize readerAt data (k+1) = after at walked
    cases walked
  · intro k item returned
    have walked := step_walked data k
    rw [returned] at walked
    generalize readerAt data (k+1) = after at walked ⊢
    cases walked with
    | failed room moved near => exact ⟨moved,near⟩
    | entry room moved near named narrow => exact ⟨moved,near⟩
  · intro k ent returned
    have walked := step_walked data k
    have same := readerAt_data data k
    rw [returned] at walked
    generalize readerAt data (k+1) = after at walked
    cases walked with
    | entry room moved near named narrow =>
      rw [same] at room ⊢
      have positive : 0 < _ := UInt32.pos_iff_ne_zero.mpr named
      exact ⟨positive,narrow,room,rfl⟩

end Rapido.Cpio
