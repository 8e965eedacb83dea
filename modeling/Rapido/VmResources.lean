import Rapido.CpioRoundTrip

-- src/bin/rapido-vm.rs: the resources a VM is started with, read from the
-- names in its initramfs.
namespace Rapido.Vm
open Cpio Newc Radix

structure VmResources where
  cpus : UInt32
  mem : List UInt8
  net : Bool
deriving DecidableEq, Repr

-- 2 CPUs and "512M"
def VmResources.defaults : VmResources := ⟨2,[53,49,50,77],false⟩

-- rapido-rsc and what may follow it: /cpu/ /mem/ /qemu/custom_args /net
def RSC : List UInt8 := [114,97,112,105,100,111,45,114,115,99]
def RSC_CPU : List UInt8 := RSC ++ [47,99,112,117,47]
def RSC_MEM : List UInt8 := RSC ++ [47,109,101,109,47]
def RSC_CUSTOM_ARGS : List UInt8 := RSC ++ [47,113,101,109,117,47,99,117,115,116,111,109,95,97,114,103,115]
def RSC_NET : List UInt8 := RSC ++ [47,110,101,116]

def memUnit (b : UInt8) : Bool := [109,77,103,71].contains b

-- s.rsplit_once(['m', 'M', 'g', 'G'])
def rsplitUnit (val : List UInt8) : Option (List UInt8 × List UInt8) :=
  let after := val.reverse.takeWhile (!memUnit ·)
  if after.length = val.length then none
  else some (val.take (val.length - after.length - 1),after.reverse)

-- Bytes that are not UTF-8 hold no number, so from_utf8 fails only where
-- parse() does.
def parseCpus (val : List UInt8) : Except IoError UInt32 :=
  match fromStrRadix 10 (2^32) val with
  | some n => .ok (.ofNat n)
  | none => .error (.ofKind .invalidData)

def parseMem (val : List UInt8) : Except IoError (List UInt8) :=
  match rsplitUnit val with
  | none => if (fromStrRadix 10 (2^64) val).isSome then .ok val else .error (.ofKind .invalidData)
  | some (n,u) => if (fromStrRadix 10 (2^64) n).isSome ∧ u = [] then .ok val else .error (.ofKind .invalidData)

def vmResourceLineProcess (line : List UInt8) (rscs : VmResources) : Except IoError (Bool × VmResources) :=
  if RSC_CPU <+: line then
    match parseCpus (line.drop RSC_CPU.length) with
    | .ok cpus => .ok (true,{rscs with cpus})
    | .error e => .error e
  else if RSC_MEM <+: line then
    match parseMem (line.drop RSC_MEM.length) with
    | .ok mem => .ok (true,{rscs with mem})
    | .error e => .error e
  else if line = RSC_CUSTOM_ARGS then .ok (true,rscs)
  else if line = RSC_NET then .ok (true,{rscs with net:=true})
  else if RSC <+: line then .ok (true,rscs)
  else .ok (false,rscs)

-- The while loop of vm_resources_get; none when the fuel runs out.
def resourcesLoop : Nat → VmResources → Bool → Reader → Option (Except IoError VmResources)
  | 0,_,_,_ => none
  | fuel+1,rscs,inRapidoRscPath,r =>
    match next r with
    | (.panicked,_) => some (.error ⟨.panic,"archive_walker.next()"⟩)
    | (.done,_) => some (.ok rscs)
    | (.item (.error e),_) => some (.error e)
    | (.item (.ok ent),r) =>
      match vmResourceLineProcess (ent.name.take (ent.namesize.toNat - 1)) rscs with
      | .error e => some (.error e)
      | .ok (true,rscs) => resourcesLoop fuel rscs true r
      | .ok (false,rscs) => if inRapidoRscPath then some (.ok rscs) else resourcesLoop fuel rscs false r

-- `img` is the content of the initramfs image.
def vmResourcesGet (img : List UInt8) : Option (Except IoError VmResources) :=
  resourcesLoop (img.length + 1) .defaults false (archiveWalk img)

theorem resourcesLoop_total (fuel : Nat) (rscs : VmResources) (inRsc : Bool) (r : Reader) (some : 0 < fuel)
    (enough : r.data.length < r.pos + NEWC_HDR_LEN * fuel) : ∃ result, resourcesLoop fuel rscs inRsc r = .some result := by
  induction fuel generalizing rscs inRsc r with
  | zero => exact absurd some (Nat.lt_irrefl 0)
  | succ fuel ih =>
    have walked := next_walked r
    unfold resourcesLoop
    generalize next r = pair at walked ⊢
    cases walked with
    | eof short => exact ⟨_,rfl⟩
    | trailer room moved => exact ⟨_,rfl⟩
    | failed room moved near => exact ⟨_,rfl⟩
    | @entry md size q room moved near named narrow =>
      have further : ∀ rscs inRsc, ∃ result, resourcesLoop fuel rscs inRsc ⟨r.data,q⟩ = .some result := by
        intro rscs inRsc
        apply ih
        · cases fuel with
          | zero => omega
          | succ fuel => exact Nat.succ_pos fuel
        · rw [Nat.mul_succ] at enough
          simp only
          omega
      simp only
      split
      · exact ⟨_,rfl⟩
      · exact further _ _
      · split
        · exact ⟨_,rfl⟩
        · exact further _ _

theorem vmResources_total (img : List UInt8) : ∃ result, vmResourcesGet img = some result :=
  resourcesLoop_total _ _ _ _ (Nat.succ_pos _) (by simp only [archiveWalk,NEWC_HDR_LEN]; omega)

-- The same loop over the names alone.
def scanNames (rscs : VmResources) (inRsc : Bool) : List (List UInt8) → Except IoError VmResources
  | [] => .ok rscs
  | name :: rest =>
    if name = trailerName then .ok rscs else
    match vmResourceLineProcess name rscs with
    | .error e => .error e
    | .ok (true,rscs) => scanNames rscs true rest
    | .ok (false,rscs) => if inRsc then .ok rscs else scanNames rscs false rest

def visibleName (e : Entry) : List UInt8 := e.name.take (e.name.length - 1)

theorem loop_scans (entries : List Entry) (narrow : ∀ e ∈ entries, e.name.length ≤ PATH_MAX + 1) (fuel : Nat)
    (rscs : VmResources) (inRsc : Bool) (r : Reader) (enough : entries.length < fuel)
    (here : r.data.drop r.pos = entries.flatMap Entry.encode ++ trailerEntry.encode) (inside : r.pos ≤ r.data.length)
    (bounded : r.data.length < 2^63) :
    resourcesLoop fuel rscs inRsc r = some (scanNames rscs inRsc (entries.map visibleName)) := by
  induction entries generalizing fuel rscs inRsc r with
  | nil =>
    obtain ⟨fuel,rfl⟩ : ∃ n, fuel = n + 1 := ⟨fuel - 1,by simp at enough; omega⟩
    have walked := next_encode trailerEntry [] (by decide) (by rw [here]; simp) inside bounded
    unfold resourcesLoop
    rw [walked]
    rfl
  | cons e entries ih =>
    obtain ⟨fuel,rfl⟩ : ∃ n, fuel = n + 1 := ⟨fuel - 1,by simp at enough; omega⟩
    have walked : next r = (if visibleName e = trailerName then .done
        else .item (.ok ⟨e.md,.ofNat e.name.length,nameBuffer e⟩),⟨r.data,r.pos + e.encode.length⟩) :=
      next_encode e (entries.flatMap Entry.encode ++ trailerEntry.encode) (narrow e (by simp)) (by rw [here]; simp)
        inside bounded
    have sized := namesize_exact e
    have seen : (nameBuffer e).take (e.name.length - 1) = visibleName e := nameBuffer_take e
    have length : r.pos + e.encode.length ≤ r.data.length := by
      have total := congrArg List.length here
      simp only [List.length_drop,List.flatMap_cons,List.length_append] at total
      omega
    have rest : ∀ rscs inRsc, resourcesLoop fuel rscs inRsc ⟨r.data,r.pos + e.encode.length⟩ =
        some (scanNames rscs inRsc (entries.map visibleName)) := by
      intro rscs inRsc
      refine ih (fun e member => narrow e (List.mem_cons_of_mem _ member)) fuel rscs inRsc _ (by simpa using enough) ?_
        length bounded
      rw [← List.drop_drop,here,List.flatMap_cons,List.append_assoc,List.drop_left]
    unfold resourcesLoop
    rw [walked,List.map_cons,scanNames]
    by_cases last : visibleName e = trailerName
    · rw [if_pos last,if_pos last]
    · rw [if_neg last,if_neg last]
      simp only [sized,seen]
      cases processed : vmResourceLineProcess (visibleName e) rscs with
      | error failure => rfl
      | ok pair =>
        obtain ⟨inside',rscs'⟩ := pair
        cases inside' with
        | true => exact rest rscs' true
        | false =>
          cases inRsc with
          | true => rfl
          | false => exact rest rscs' false

end Rapido.Vm
