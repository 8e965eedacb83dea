import Rapido.CutInvariant
import Rapido.ElfDeps
import Rapido.ElfLayout

-- The library names in the bytes of an ELF file are the ones that elf_deps
-- returns.
namespace Rapido.Elf
open Endian Eff Cut

-- A NUL-terminated UTF-8 string at some offset of a string table.
structure StringAt (strtab : List UInt8) (off : Nat) (name : Name) : Prop where
  here : At strtab off (name ++ [0])
  inner : 0 ∉ name
  text : Utf8.valid name = true

theorem takeWhile_nul (inner : 0 ∉ name) : (name ++ 0 :: rest).takeWhile (· ≠ (0 : UInt8)) = name := by
  rw [List.takeWhile_append_of_pos]
  · simp
  · intro b inside
    exact decide_eq_true fun zero => inner (zero ▸ inside)

theorem nul_split {bytes : List UInt8} (inside : 0 ∈ bytes) : ∃ rest, bytes = bytes.takeWhile (· ≠ 0) ++ 0 :: rest ∧
    0 ∉ bytes.takeWhile (· ≠ 0) := by
  induction bytes with
  | nil => cases inside
  | cons b rest ih =>
    by_cases zero : b = 0
    · exact ⟨rest,by simp [zero],by simp [zero]⟩
    · obtain ⟨after,split,inner⟩ := ih ((List.mem_cons.mp inside).resolve_left (Ne.symm zero))
      have step : (b :: rest).takeWhile (· ≠ 0) = b :: rest.takeWhile (· ≠ 0) := by simp [zero]
      rw [step]
      refine ⟨after,congrArg (b :: ·) split,fun again => ?_⟩
      rcases List.mem_cons.mp again with same | later
      · exact zero same.symm
      · exact inner later

theorem getRaw_ok : getRaw strtab off = .ok raw ↔ At strtab off (raw ++ [0]) ∧ 0 ∉ raw := by
  unfold getRaw
  constructor
  · intro ran
    split at ran
    · cases ran
    · split at ran
      · cases ran
      · rename_i within
        split at ran
        · rename_i inside
          cases ran
          obtain ⟨rest,split,inner⟩ := nul_split inside
          refine ⟨⟨strtab.take off,rest,by rw [List.length_take]; omega,?_⟩,inner⟩
          rw [List.append_assoc,List.append_assoc,List.singleton_append,← split,List.take_append_drop]
        · cases ran
  · rintro ⟨⟨before,after,rfl,rfl⟩,inner⟩
    have dropped : (before ++ (raw ++ [0]) ++ after).drop before.length = raw ++ 0 :: after := by
      rw [List.append_assoc,List.drop_left,List.append_assoc,List.singleton_append]
    rw [if_neg (by simp),if_neg (by simp),dropped,if_pos (by simp),takeWhile_nul inner]

theorem stringGet_ok : stringGet strtab off = .ok name ↔ StringAt strtab off name := by
  unfold stringGet
  rw [except_bind_ok]
  constructor
  · rintro ⟨raw,found,ran⟩
    obtain ⟨here,inner⟩ := getRaw_ok.mp found
    split at ran
    · rename_i text
      cases ran
      exact ⟨here,inner,text⟩
    · cases ran
  · rintro ⟨here,inner,text⟩
    exact ⟨name,getRaw_ok.mpr ⟨here,inner⟩,if_pos text⟩

-- What is read at an offset, if anything.
def Read (strtab : List UInt8) (off : Nat) (found : Option Name) : Prop := ∀ name, found = some name ↔ StringAt strtab off name

theorem read_stringGet (strtab : List UInt8) (off : Nat) : Read strtab off (stringGet strtab off).toOption := by
  intro name
  rw [← stringGet_ok]
  cases stringGet strtab off with
  | ok other => simp [Except.toOption]
  | error failure => simp [Except.toOption]

theorem Read.unique (one : Read strtab off found) (other : Read strtab off again) : found = again := by
  cases found with
  | some name => exact ((other name).mpr ((one name).mp rfl)).symm
  | none =>
    cases again with
    | none => rfl
    | some name => exact (one name).mpr ((other name).mp rfl)

def DT_NEEDED : Int := 1
def DT_RUNPATH : Int := 29

def valuesOf (tag : Int) (dyns : List Dyn) : List Nat := (dyns.filter fun dyn => dyn.dTag = tag).map Dyn.dUn

-- Where the dynamic entries and the strings of a file stand. They are looked for
-- in the sections only.
structure DynamicAt (bytes : List UInt8) (file : ElfStream) (dyns : List Dyn) (strtab : List UInt8) : Prop where
  described : Describes bytes file
  entries : ∃ shdr buf, file.shdrs.find? (fun shdr => shdr.shType = SHT_DYNAMIC) = some shdr ∧ At bytes shdr.shOffset buf ∧
    buf.length = shdr.shSize ∧ (Dyn.format file.ehdr.endianness file.ehdr.elfClass).Lists buf dyns
  strings : ∃ symtab link, file.shdrs.find? (fun shdr => shdr.shType = SHT_DYNSYM) = some symtab ∧
    symtab.shOffset + symtab.shSize ≤ bytes.length ∧ symtab.shEntsize = Symbol.sizeFor file.ehdr.elfClass ∧
    file.shdrs[symtab.shLink]? = some link ∧ At bytes link.shOffset strtab ∧ strtab.length = link.shSize

-- The names that a file needs, each of which can be read, and the search paths
-- that can be read.
structure Requires (bytes : List UInt8) (needed runpaths : List Name) : Prop where
  tables : ∃ file dyns strtab, DynamicAt bytes file dyns strtab ∧ List.Forall₂ (StringAt strtab) (valuesOf DT_NEEDED dyns) needed ∧
    ∃ found, List.Forall₂ (Read strtab) (valuesOf DT_RUNPATH dyns) found ∧ runpaths = found.reduceOption

theorem dynTag_needed : dynTag tag = .needed ↔ tag = DT_NEEDED := by
  unfold dynTag DT_NEEDED
  by_cases one : tag = 1
  · simp [one]
  · by_cases other : tag = 29
    · simp [other]
    · simp [one,other]

theorem dynTag_runpath : dynTag tag = .runpath ↔ tag = DT_RUNPATH := by
  unfold dynTag DT_RUNPATH
  by_cases one : tag = 1
  · simp [one]
  · by_cases other : tag = 29
    · simp [other]
    · simp [one,other]

theorem offsets_values {kind : DynTag} (same : ∀ t, dynTag t = kind ↔ t = tag) (dyns : List Dyn) :
    offsets kind (dyns.map fun dyn => (dynTag dyn.dTag,dyn.dUn)) = valuesOf tag dyns := by
  unfold offsets valuesOf
  rw [List.filterMap_map,← List.filterMap_eq_map,List.filterMap_filter]
  refine List.filterMap_congr fun dyn _ => ?_
  by_cases here : dyn.dTag = tag
  · simp [here,(same tag).mpr rfl]
  · simp [here,same]

-- What the reader says of a file, without its cache.
def viewOf (bytes : List UInt8) (file : ElfStream) : Rapido.ElfStream where
  dynamic := dynamicView (dynamicOf bytes file)
  dynamicSymbolTable := symbolView (symbolTableOf bytes file SHT_DYNSYM)

theorem elfOpen_some : elfOpen bytes = some stream ↔ ∃ file, fileOf bytes = .ok file ∧ stream = viewOf bytes file := by
  obtain ⟨opened,kept⟩ := openStream_answers bytes (.new bytes) (coherent_new bytes)
  unfold elfOpen
  cases ran : openStream.run (.new bytes) with
  | mk result reader =>
    rw [ran] at opened kept
    rw [← opened]
    cases result with
    | error failure => exact ⟨nofun,nofun⟩
    | ok file =>
      obtain ⟨first,still⟩ := dynamic_answers bytes file reader kept
      obtain ⟨second,_⟩ := getSymbolTableOfType_answers bytes file SHT_DYNSYM _ still
      simp only [first,dynamicSymbolTable,second,Option.some.injEq,Except.ok.injEq,exists_eq_left']
      exact eq_comm

theorem sectionBytes_ok (short : bytes.length < 2^64) {shdr : SectionHeader} :
    (∃ range, shdr.getDataRange = .ok range ∧ slice bytes range = .ok buf) ↔ At bytes shdr.shOffset buf ∧ buf.length = shdr.shSize := by
  simp only [SectionHeader.getDataRange,except_bind_ok,checkedAdd_ok]
  constructor
  · rintro ⟨_,⟨_,⟨_,rfl⟩,⟨⟩⟩,found⟩
    obtain ⟨here,length⟩ := (slice_ok (Nat.le_add_right _ _)).mp found
    exact ⟨here,(Nat.add_left_cancel length).symm⟩
  · rintro ⟨here,length⟩
    have within := here.length_le
    exact ⟨_,⟨_,⟨by omega,rfl⟩,rfl⟩,(slice_ok (Nat.le_add_right _ _)).mpr ⟨here,by rw [length]⟩⟩

theorem shdrGet_ok : shdrGet shdrs index = .ok shdr ↔ shdrs[index]? = some shdr := by
  unfold shdrGet
  cases shdrs[index]? with
  | none => exact ⟨nofun,nofun⟩
  | some other => simp

theorem dynamicOf_ok (short : bytes.length < 2^64) (sections : file.shdrs ≠ []) :
    dynamicOf bytes file = .ok (some dyns) ↔ ∃ shdr buf,
      file.shdrs.find? (fun shdr => shdr.shType = SHT_DYNAMIC) = some shdr ∧ At bytes shdr.shOffset buf ∧ buf.length = shdr.shSize ∧
        (Dyn.format file.ehdr.endianness file.ehdr.elfClass).Lists buf dyns := by
  unfold dynamicOf
  rw [if_pos sections]
  cases file.shdrs.find? fun shdr => shdr.shType = SHT_DYNAMIC with
  | none => exact ⟨nofun,nofun⟩
  | some shdr =>
    simp only [except_bind_ok,dynamicTableOf,Option.some.injEq]
    constructor
    · rintro ⟨range,ranged,buf,found,⟨⟩⟩
      obtain ⟨here,length⟩ := (sectionBytes_ok short).mp ⟨range,ranged,found⟩
      have within := here.length_le
      exact ⟨shdr,buf,rfl,here,length,((Dyn.format file.ehdr.endianness file.ehdr.elfClass).collect_iff (by omega)).mp rfl⟩
    · rintro ⟨_,buf,rfl,here,length,lists⟩
      have within := here.length_le
      obtain ⟨range,ranged,found⟩ := (sectionBytes_ok short).mpr ⟨here,length⟩
      have listed := ((Dyn.format file.ehdr.endianness file.ehdr.elfClass).collect_iff (by omega)).mpr lists
      exact ⟨range,ranged,buf,found,congrArg (fun dyns => Except.ok (some dyns)) listed⟩

theorem symbolTableOf_ok (short : bytes.length < 2^64) : symbolTableOf bytes file symtabType = .ok (some (symbols,strtab)) ↔
    ∃ symtab link, file.shdrs.find? (fun shdr => shdr.shType = symtabType) = some symtab ∧
      (At bytes symtab.shOffset symbols ∧ symbols.length = symtab.shSize) ∧ symtab.shEntsize = Symbol.sizeFor file.ehdr.elfClass ∧
      file.shdrs[symtab.shLink]? = some link ∧ At bytes link.shOffset strtab ∧ strtab.length = link.shSize := by
  unfold symbolTableOf
  cases file.shdrs.find? fun shdr => shdr.shType = symtabType with
  | none => exact ⟨nofun,nofun⟩
  | some symtab =>
    simp only [except_bind_ok,shdrGet_ok,validateEntsize_ok,Option.some.injEq]
    constructor
    · rintro ⟨symRange,symRanged,_,symFound,link,linked,strRange,strRanged,_,strFound,_,⟨entsize,_⟩,⟨⟩⟩
      exact ⟨symtab,link,rfl,(sectionBytes_ok short).mp ⟨symRange,symRanged,symFound⟩,entsize,linked,
        (sectionBytes_ok short).mp ⟨strRange,strRanged,strFound⟩⟩
    · rintro ⟨_,link,rfl,symHere,entsize,linked,strHere⟩
      obtain ⟨symRange,symRanged,symFound⟩ := (sectionBytes_ok short).mpr symHere
      obtain ⟨strRange,strRanged,strFound⟩ := (sectionBytes_ok short).mpr strHere
      exact ⟨symRange,symRanged,_,symFound,link,linked,strRange,strRanged,_,strFound,_,⟨entsize,rfl⟩,rfl⟩

-- Both tables can be read just when they stand where the section headers say.
theorem tables_ok (short : bytes.length < 2^64) (opened : fileOf bytes = .ok file) :
    (dynamicOf bytes file = .ok (some dyns) ∧ ∃ symbols, symbolTableOf bytes file SHT_DYNSYM = .ok (some (symbols,strtab))) ↔
      DynamicAt bytes file dyns strtab := by
  have described := (fileOf_ok short).mp opened
  constructor
  · rintro ⟨entries,symbols,strings⟩
    obtain ⟨symtab,link,found,⟨symHere,symLength⟩,entsize,linked,strHere⟩ := (symbolTableOf_ok short).mp strings
    have sections : file.shdrs ≠ [] := List.ne_nil_of_mem (List.mem_of_find?_eq_some found)
    have within := symHere.length_le
    exact ⟨described,(dynamicOf_ok short sections).mp entries,symtab,link,found,by omega,entsize,linked,strHere⟩
  · rintro ⟨_,entries,symtab,link,found,within,entsize,linked,strHere⟩
    have sections : file.shdrs ≠ [] := List.ne_nil_of_mem (List.mem_of_find?_eq_some found)
    have symHere := at_taken within
    refine ⟨(dynamicOf_ok short sections).mpr entries,_,(symbolTableOf_ok short).mpr
      ⟨symtab,link,found,⟨symHere,?_⟩,entsize,linked,strHere⟩⟩
    rw [List.length_take,List.length_drop]
    omega

theorem read_some (read : Read strtab off (some name)) : StringAt strtab off name := (read name).mp rfl

theorem forall₂_reads (strtab : List UInt8) (offs : List Nat) :
    List.Forall₂ (Read strtab) offs (offs.map fun off => (stringGet strtab off).toOption) := by
  induction offs with
  | nil => exact .nil
  | cons off rest ih => exact .cons (read_stringGet strtab off) ih

theorem forall₂_reads_unique (reads : List.Forall₂ (Read strtab) offs found) :
    found = offs.map fun off => (stringGet strtab off).toOption := by
  induction reads with
  | nil => rfl
  | cons read _ ih => rw [List.map_cons,ih,read.unique (read_stringGet strtab _)]

theorem forall₂_strings (strtab : List UInt8) (offs : List Nat) (needed : List Name) :
    List.Forall₂ (StringAt strtab) offs needed ↔ offs.map (fun off => (stringGet strtab off).toOption) = needed.map some := by
  induction offs generalizing needed with
  | nil => cases needed <;> simp
  | cons off rest ih =>
    cases needed with
    | nil => simp
    | cons name others =>
      rw [List.forall₂_cons,List.map_cons,List.map_cons,List.cons.injEq,ih]
      exact and_congr_left' (read_stringGet strtab off name).symm

theorem viewOf_needed (entries : dynamicOf bytes file = .ok (some dyns))
    (strings : symbolTableOf bytes file SHT_DYNSYM = .ok (some (symbols,strtab))) :
    neededStrings (viewOf bytes file) = (valuesOf DT_NEEDED dyns).map (fun off => (stringGet strtab off).toOption) ∧
      runpathsOf (viewOf bytes file) = ((valuesOf DT_RUNPATH dyns).map fun off => (stringGet strtab off).toOption).reduceOption := by
  unfold neededStrings runpathsOf viewOf
  rw [entries,strings]
  simp only [dynamicView,symbolView,Option.map_some,offsets_values fun _ => dynTag_needed,offsets_values fun _ => dynTag_runpath]
  refine ⟨trivial,?_⟩
  change _ = List.filterMap id _
  rw [List.filterMap_map]
  rfl

-- A file that needs something has both tables.
theorem viewOf_tables (some : neededOf (viewOf bytes file) ≠ []) : ∃ dyns symbols strtab,
    dynamicOf bytes file = .ok (.some dyns) ∧ symbolTableOf bytes file SHT_DYNSYM = .ok (.some (symbols,strtab)) := by
  unfold neededOf viewOf at some
  dsimp only at some
  cases entries : dynamicOf bytes file with
  | error failure => simp [entries,dynamicView] at some
  | ok table =>
    cases table with
    | none => simp [entries,dynamicView] at some
    | some dyns =>
      cases strings : symbolTableOf bytes file SHT_DYNSYM with
      | error failure => simp [entries,strings,dynamicView,symbolView] at some
      | ok tables =>
        cases tables with
        | none => simp [entries,strings,dynamicView,symbolView] at some
        | some tables => exact ⟨dyns,tables.1,tables.2,rfl,rfl⟩

-- elf_deps finds a library just where the bytes of the file name one. The names
-- are those that are new to the run, in the order of the dynamic entries.
theorem elfDeps_requires (short : bytes.length < 2^64) (reader : host.elfOpen = elfOpen) (found : deps ≠ []) :
    (elfDeps host bytes).run seen = (.ok deps,after) ↔ ∃ needed runpaths, Requires bytes needed runpaths ∧
      deps = (passing seen needed).map (depEnt runpaths) ∧ after = filtered seen needed := by
  constructor
  · intro ran
    obtain ⟨stream,opened,readable,rfl,rfl⟩ := elfDeps_ok ran
    rw [reader] at opened
    obtain ⟨file,parsed,rfl⟩ := elfOpen_some.mp opened
    have some : neededOf (viewOf bytes file) ≠ [] := by
      intro none
      rw [none] at found
      exact found rfl
    obtain ⟨dyns,symbols,strtab,entries,strings⟩ := viewOf_tables some
    obtain ⟨needed,runpaths⟩ := viewOf_needed entries strings
    refine ⟨_,_,⟨file,dyns,strtab,(tables_ok short parsed).mp ⟨entries,symbols,strings⟩,?_,_,forall₂_reads strtab _,runpaths⟩,rfl,rfl⟩
    rw [forall₂_strings,← needed,← namesRead_needed readable]
    exact namesRead_all readable
  · rintro ⟨needed,runpaths,⟨file,dyns,strtab,located,strings,paths,reads,rfl⟩,rfl,rfl⟩
    have parsed := (fileOf_ok short).mpr located.described
    obtain ⟨entries,symbols,table⟩ := (tables_ok short parsed).mpr located
    obtain ⟨asNeeded,asRunpaths⟩ := viewOf_needed entries table
    have opened : host.elfOpen bytes = some (viewOf bytes file) := by
      rw [reader]
      exact elfOpen_some.mpr ⟨file,parsed,rfl⟩
    rw [(forall₂_strings strtab _ needed).mp strings] at asNeeded
    rw [← forall₂_reads_unique reads] at asRunpaths
    have readable : none ∉ neededStrings (viewOf bytes file) := by simp [asNeeded]
    have names : namesRead (neededStrings (viewOf bytes file)) = needed := by
      have all := namesRead_all readable
      rw [asNeeded] at all ⊢
      exact (List.map_injective_iff.mpr (Option.some_injective _) all).symm
    rcases elfDeps_run opened seen with ⟨e,_,none⟩ | whole
    · rw [none] at asNeeded
      have empty : needed = [] := List.map_eq_nil_iff.mp asNeeded.symm
      rw [empty] at found
      exact absurd rfl found
    · rw [whole,if_neg readable,names,asRunpaths]

def readingHost : Host := {bareHost with elfOpen := elfOpen}

theorem sample_requires : sampleBytes.length < 2^64 ∧ ∃ needed runpaths, Requires sampleBytes needed runpaths ∧
    [GatherEnt.lib [108]] = (passing [] needed).map (depEnt runpaths) ∧ [[108]] = filtered [] needed := by
  have short : sampleBytes.length < 2^64 := by decide +kernel
  have ran : (elfDeps readingHost sampleBytes).run [] = (.ok [.lib [108]],[[108]]) := by decide +kernel
  exact ⟨short,(elfDeps_requires short rfl (List.cons_ne_nil _ _)).mp ran⟩

end Rapido.Elf
