/-
usermode.c: `usermode_load_program`, and what a call that fails leaves behind.

The loader opens the file and checks its header, makes an address space, and puts it
into the process at once. Only then does it read the program headers, map the segments
and map the stack. Each of these can fail, and none of the ways out takes anything
back. `load_program_undone_iff` says that a call which returns 0 leaves the process and
the free frames as they were exactly if it fails before there is an address space.

The bytes of a segment go to its virtual addresses, in the address space the processor
is in (`storeBytes`), which is not the new one. `none` stands for a call that never
returns: a page fault there, which the kernel's handler only reports, or a loop of the
file system that does not end in `fuel` rounds.
-/

import Curnel.Process.Create
import Curnel.Filesystem.Read
import Curnel.Filesystem.Directory
import Curnel.Paging.Roles
import Curnel.Paging.Lookup

namespace Curnel.Usermode

open Lib.Bytes Lib.Word Paging
open Filesystem (Ata FsInfo File FS_SUCCESS FS_FILE fsOpen fsRead fsSeek opened emptyFile
  smallVolume)

/-! ### The code -/

/-- Both parts of a `process_t`. -/
structure UserProcess extends Process, Process.Record

/-- A little-endian field of a buffer. -/
def field (buffer : List UInt8) (offset size : Nat) : Nat :=
  readLE (fun a => buffer.getD a 0) offset size

/-- What the loader reads from the header of the file. -/
structure ElfHeader where
  phOffset : Nat
  phSize : Nat
  phCount : Nat
  entryPoint : Nat
deriving DecidableEq

def elfHeaderOf (elfHeader : List UInt8) : ElfHeader where
  phOffset := field elfHeader 32 8
  phSize := field elfHeader 54 2
  phCount := field elfHeader 56 2
  entryPoint := field elfHeader 24 8

/-- The magic number, the class of 64-bit files, and the type of an executable. -/
def isExecutable (elfHeader : List UInt8) : Bool :=
  elfHeader.getD 0 0 == 0x7F && elfHeader.getD 1 0 == 0x45 && elfHeader.getD 2 0 == 0x4C &&
    elfHeader.getD 3 0 == 0x46 && elfHeader.getD 4 0 == 2 && elfHeader.getD 16 0 == 2

structure ProgramHeader where
  type : Nat
  vaddr : Nat
  filesz : Nat
  memsz : Nat
  offset : Nat
  flags : Nat

def programHeaderOf (phData : List UInt8) : ProgramHeader where
  type := field phData 0 4
  vaddr := field phData 16 8
  filesz := field phData 32 8
  memsz := field phData 40 8
  offset := field phData 8 8
  flags := field phData 4 4

def ProgramHeader.pageCount (ph : ProgramHeader) : Nat :=
  wsub 64 (wadd 64 ph.memsz PAGE_SIZE) 1 / PAGE_SIZE

def ProgramHeader.pageFlags (ph : ProgramHeader) : Nat :=
  if ph.flags &&& 0x2 ≠ 0 then PAGE_PRESENT ||| PAGE_WRITABLE else PAGE_PRESENT

/-- Where in page `j` of a segment its bytes begin, and how many the file has for it. -/
def ProgramHeader.pageOffset (ph : ProgramHeader) (j : Nat) : Nat :=
  if j = 0 then ph.vaddr &&& 0xFFF else 0

def ProgramHeader.bytesToRead (ph : ProgramHeader) (j : Nat) : Nat :=
  let room := PAGE_SIZE - ph.pageOffset j
  if wadd 64 (wmul 64 j PAGE_SIZE) room > ph.filesz then ph.filesz - wmul 64 j PAGE_SIZE else room

section Loader

variable {σ : Type} (cpu : Processor) (cr3 : Nat) (ata : Ata σ) (info : FsInfo) (fuel : Nat)

/-- The kernel's stores to a virtual address and those after it. The processor does not check
that a page is writable, since the bit of `cr0` for that is clear. -/
def storeBytes : List UInt8 → Nat → Store → Option Store
  | [], _, m => some m
  | byte :: bytes, addr, m =>
      match cpu.translate m cr3 addr with
      | none => none
      | some t => storeBytes bytes (wadd 64 addr 1) (writeLE m t.physAddr 1 byte.toNat)

/-- The loop over the pages of a segment from page `j` on, with `n` pages to go: has it gone
through all of them? -/
def loadPages (userPml4 : Nat) (ph : ProgramHeader) :
    Nat → Nat → File → State → σ → Option (Bool × File × State × σ)
  | 0, _, file, s, d => some (true, file, s, d)
  | n + 1, j, file, s, d =>
      let vaddr := wadd 64 (ph.vaddr &&& PAGE_MASK) (wmul 64 j PAGE_SIZE)
      let (page, s) := pagingAllocUserPage userPml4 vaddr ph.pageFlags s
      if page = NULL then some (false, file, s, d)
      else if wmul 64 j PAGE_SIZE < ph.filesz then
        let (_, file) := fsSeek info file ((ph.offset + j * PAGE_SIZE) % 2 ^ 32)
        match fsRead ata info fuel file (ph.bytesToRead j) d with
        | none => none
        | some (_, bytes, file, d) =>
            match storeBytes cpu cr3 bytes (wadd 64 vaddr (ph.pageOffset j)) s.ram with
            | none => none
            | some ram => loadPages userPml4 ph n (j + 1) file { s with ram := ram } d
      else loadPages userPml4 ph n (j + 1) file s d

/-- The loop over the program headers from header `i` on, with `n` to go. -/
def loadSegments (userPml4 : Nat) (elf : ElfHeader) :
    Nat → Nat → File → State → σ → Option (Bool × State × σ)
  | 0, _, _, s, d => some (true, s, d)
  | n + 1, i, file, s, d =>
      let (_, file) := fsSeek info file ((elf.phOffset + i * elf.phSize) % 2 ^ 32)
      match fsRead ata info fuel file 56 d with
      | none => none
      | some (count, phData, file, d) =>
          if count ≠ 56 then some (false, s, d)
          else
            let ph := programHeaderOf phData
            if ph.type ≠ 1 then loadSegments userPml4 elf n (i + 1) file s d
            else
              match loadPages cpu cr3 ata info fuel userPml4 ph ph.pageCount 0 file s d with
              | none => none
              | some (false, _, s, d) => some (false, s, d)
              | some (true, file, s, d) => loadSegments userPml4 elf n (i + 1) file s d

def stackSize : Nat := 64 * 1024

/-- The loop over the pages of the stack from `addr` on. -/
def allocStack (userPml4 : Nat) : Nat → Nat → State → Bool × State
  | 0, _, s => (true, s)
  | n + 1, addr, s =>
      if addr < USER_STACK_TOP then
        let (page, s) :=
          pagingAllocUserPage userPml4 addr (PAGE_PRESENT ||| PAGE_WRITABLE ||| PAGE_USER) s
        if page = NULL then (false, s) else allocStack userPml4 n (addr + PAGE_SIZE) s
      else (true, s)

/-- `usermode_load_program` up to where it asks for an address space. The answer is what it has
read from the header, or `none` where it has returned 0. -/
def openProgram (filename : List UInt8) (file : File) (d : σ) :
    Option (Option (ElfHeader × File) × σ) :=
  let (result, file, d) := fsOpen ata info filename file d
  if result ≠ FS_SUCCESS then some (none, d)
  else
    match fsRead ata info fuel file 64 d with
    | none => none
    | some (count, elfHeader, file, d) =>
        if count ≠ 64 then some (none, d)
        else if isExecutable elfHeader = false then some (none, d)
        else some (some (elfHeaderOf elfHeader, file), d)

/-- `file` is what the local variable holds when the call begins. -/
def usermodeLoadProgram (process : UserProcess) (filename : List UInt8) (file : File)
    (s : State) (d : σ) : Option (Nat × UserProcess × State × σ) :=
  match openProgram ata info fuel filename file d with
  | none => none
  | some (none, d) => some (0, process, s, d)
  | some (some (elf, file), d) =>
      let (userPml4, s) := pagingCreateUserAddressSpace s
      if userPml4 = NULL then some (0, process, s, d)
      else
        let process := { process with pageDirectory := userPml4 }
        match loadSegments cpu cr3 ata info fuel userPml4 elf elf.phCount 0 file s d with
        | none => none
        | some (false, s, d) => some (0, process, s, d)
        | some (true, s, d) =>
            let stackBottom := USER_STACK_TOP - stackSize
            -- One round more than the stack has pages.
            match allocStack userPml4 (stackSize / PAGE_SIZE + 1) stackBottom s with
            | (false, s) => some (0, process, s, d)
            | (true, s) =>
                some (1, { process with
                  registers := { process.registers with
                    rip := elf.entryPoint
                    rsp := USER_STACK_TOP } }, s, d)

/-! ### What a call that fails leaves behind -/

/-- The file is refused: it cannot be opened, or it does not begin with the 64 bytes of a header
of a 64-bit executable. -/
def Refused (filename : List UInt8) (file : File) (d : σ) : Prop :=
  ∃ d', openProgram ata info fuel filename file d = some (none, d')

/-- The process is as it was, and so is every frame that was free. -/
structure Undone (process process' : UserProcess) (s s' : State) : Prop where
  process_eq : process' = process
  frames : ∀ k, Free s k → Free s' k

/-- No frame that may be handed out is the address space of the process. -/
def KeepsDirectory (process : UserProcess) (s : State) : Prop :=
  ∀ k, Free s k → process.pageDirectory = PAGE_SIZE * k → k = 0

variable {cpu cr3 ata info fuel} {process process' : UserProcess} {filename : List UInt8}
  {file : File} {s s' : State} {d d' : σ}

/-- An address space is the first thing that the loader allocates. Where frame 0 is free, that
is the frame it takes, and its address counts as a failure. -/
theorem createUserAddressSpace_spec (ok : Addressable s) :
    (pagingCreateUserAddressSpace s = (NULL, s) ∧ ∀ k, ¬ Free s k) ∨
      ∃ k s', Free s k ∧ pagingCreateUserAddressSpace s = (PAGE_SIZE * k, s') ∧
        (k = 0 → ¬ Free s' 0) := by
  simp only [pagingCreateUserAddressSpace]
  rcases pmmAllocPage_spec ok with ⟨hnone, hempty⟩ | ⟨k, hfree, htake⟩
  · rw [hnone, if_pos rfl]
    exact Or.inl ⟨rfl, hempty⟩
  · have haddr : (pmmTakePage k s).1 = PAGE_SIZE * k := takePage_addr ok hfree
    refine Or.inr ⟨k, ?_⟩
    rw [htake]
    by_cases hzero : k = 0
    · subst hzero
      have hnull : PAGE_SIZE * 0 = NULL := Nat.mul_zero _
      rw [haddr, if_pos hnull, hnull]
      exact ⟨_, hfree, rfl, fun _ hfree' => ((takePage_free ok hfree 0).mp hfree').2 rfl⟩
    · have hne : PAGE_SIZE * k ≠ NULL := Nat.mul_ne_zero (by decide) hzero
      rw [haddr, if_neg hne]
      exact ⟨_, hfree, rfl, fun h => absurd h hzero⟩

theorem load_program_refused {d₁ : σ}
    (hopen : openProgram ata info fuel filename file d = some (none, d₁)) :
    usermodeLoadProgram cpu cr3 ata info fuel process filename file s d
      = some (0, process, s, d₁) := by
  rw [usermodeLoadProgram, hopen]

/-- A file that is not refused: there is no address space for it, or the process has a new page
directory, whatever fails then. -/
theorem load_program_late {elf : ElfHeader} {file₁ : File} {d₁ : σ}
    (hopen : openProgram ata info fuel filename file d = some (some (elf, file₁), d₁))
    (h : usermodeLoadProgram cpu cr3 ata info fuel process filename file s d
      = some (0, process', s', d')) :
    (pagingCreateUserAddressSpace s).1 = NULL ∧ process' = process ∧
        s' = (pagingCreateUserAddressSpace s).2 ∨
      (pagingCreateUserAddressSpace s).1 ≠ NULL ∧
        process' = { process with pageDirectory := (pagingCreateUserAddressSpace s).1 } := by
  rw [usermodeLoadProgram, hopen] at h
  simp only at h
  split at h
  next hnull =>
    injection h with h
    injection h with _ h
    injection h with hprocess h
    injection h with hs _
    exact Or.inl ⟨hnull, hprocess.symm, hs.symm⟩
  next hroot =>
    refine Or.inr ⟨hroot, ?_⟩
    split at h
    · cases h
    · injection h with h
      injection h with _ h
      injection h with hprocess _
      exact hprocess.symm
    · split at h
      · injection h with h
        injection h with _ h
        injection h with hprocess _
        exact hprocess.symm
      · injection h with h
        injection h with hone _
        cases hone

/-- A call returns 0 with the process as it was and every frame free that was free exactly if
the file is refused, or no frame is free for the address space. -/
theorem load_program_undone_iff (ok : Addressable s) (keeps : KeepsDirectory process s)
    (h : usermodeLoadProgram cpu cr3 ata info fuel process filename file s d
      = some (0, process', s', d')) :
    Undone process process' s s' ↔
      Refused ata info fuel filename file d ∨ ∀ k, ¬ Free s k := by
  cases hopen : openProgram ata info fuel filename file d with
  | none =>
      rw [usermodeLoadProgram, hopen] at h
      cases h
  | some result =>
      obtain ⟨opened, d₁⟩ := result
      cases opened with
      | none =>
          rw [load_program_refused hopen] at h
          cases h
          exact ⟨fun _ => Or.inl ⟨_, hopen⟩, fun _ => ⟨rfl, fun _ hfree => hfree⟩⟩
      | some found =>
          have accepted : ¬ Refused ata info fuel filename file d := by
            rintro ⟨d₂, hrefused⟩
            rw [hopen] at hrefused
            cases hrefused
          have late := load_program_late hopen h
          rcases createUserAddressSpace_spec ok with
            ⟨hcreate, hnone⟩ | ⟨k, s₁, hfree, hcreate, hzero⟩
          · rw [hcreate] at late
            rcases late with ⟨-, rfl, rfl⟩ | ⟨hroot, -⟩
            · exact ⟨fun _ => Or.inr hnone, fun _ => ⟨rfl, fun _ hfree => hfree⟩⟩
            · exact absurd rfl hroot
          · rw [hcreate] at late
            constructor
            · intro undone
              rcases late with ⟨hnull, -, rfl⟩ | ⟨hroot, hprocess⟩
              · have hk : k = 0 := (Nat.mul_eq_zero.mp hnull).resolve_left (by decide)
                subst hk
                exact absurd (undone.frames 0 hfree) (hzero rfl)
              · have hdirectory : process.pageDirectory = PAGE_SIZE * k := by
                  rw [← undone.process_eq, hprocess]
                rw [keeps k hfree hdirectory] at hroot
                exact absurd rfl hroot
            · rintro (refused | hnone)
              · exact absurd refused accepted
              · exact absurd hfree (hnone k)

end Loader

/-! ### A program header that is not there -/

/-- The root directory holds the file `A`, a header of 64 bytes that promises a program header
after it. -/
def headerDisk : Ata Unit where
  readSector lba d :=
    let entry := 0x41 :: List.replicate 10 0x20 ++ List.replicate 15 0 ++ [3, 0, 64]
    let header := [0x7F, 0x45, 0x4C, 0x46, 2] ++ List.replicate 11 0 ++ [2] ++
      List.replicate 15 0 ++ [64] ++ List.replicate 21 0 ++ [56, 0, 1]
    (some fun a => (if lba = 2 then entry else header).getD a 0, d)
  writeSector _ _ d := (true, d)

def fileOfHeader : File := opened smallVolume ⟨[0x41], 64, FS_FILE, 3⟩

theorem headerDisk_opens : openProgram headerDisk smallVolume 2 [0x41] emptyFile ()
    = some (some (⟨64, 56, 1, 0⟩, { fileOfHeader with position := 64 }), ()) := by
  decide

/-- The program header cannot be read. -/
theorem headerDisk_fails (cpu : Processor) (cr3 userPml4 : Nat) (s : State) :
    loadSegments cpu cr3 headerDisk smallVolume 2 userPml4 ⟨64, 56, 1, 0⟩ 1 0
      { fileOfHeader with position := 64 } s () = some (false, s, ()) := by
  have hread : fsRead headerDisk smallVolume 2
      (fsSeek smallVolume { fileOfHeader with position := 64 } 64).2 56 ()
        = some (0, [], { fileOfHeader with position := 64 }, ()) := by
    decide
  rw [loadSegments]
  simp only [Nat.zero_mul, Nat.add_zero]
  rw [Nat.mod_eq_of_lt (by decide : 64 < 2 ^ 32), hread]
  rfl

def newProcess : UserProcess := { Process.emptyProcess, Process.emptyRecord with }

theorem newProcess_keeps (s : State) : KeepsDirectory newProcess s := by
  intro k _ hdirectory
  exact (Nat.mul_eq_zero.mp hdirectory.symm).resolve_left (by decide)

theorem addressable_exampleBoot : Addressable exampleBoot :=
  (Spaces.ok_start bootLayout_exampleBoot).owned.forest.frames.addressable

/-- There is no file `B`. -/
theorem load_program_undone_missing_file :
    usermodeLoadProgram smallProcessor 0x104000 headerDisk smallVolume 2 newProcess [0x42]
        emptyFile exampleBoot () = some (0, newProcess, exampleBoot, ()) ∧
      Undone newProcess newProcess exampleBoot exampleBoot := by
  have hopen : openProgram headerDisk smallVolume 2 [0x42] emptyFile () = some (none, ()) := by
    decide
  have hrun : usermodeLoadProgram smallProcessor 0x104000 headerDisk smallVolume 2 newProcess
      [0x42] emptyFile exampleBoot () = some (0, newProcess, exampleBoot, ()) :=
    load_program_refused hopen
  exact ⟨hrun, (load_program_undone_iff addressable_exampleBoot (newProcess_keeps _) hrun).mpr
    (Or.inl ⟨(), hopen⟩)⟩

/-- The load of `A` returns 0; the process keeps the new page directory, and its frame is lost. -/
theorem load_program_leaks_directory :
    ∃ process' s', usermodeLoadProgram smallProcessor 0x104000 headerDisk smallVolume 2 newProcess
        [0x41] emptyFile exampleBoot () = some (0, process', s', ()) ∧
      process'.pageDirectory ≠ newProcess.pageDirectory ∧
      ∃ k, Free exampleBoot k ∧ ¬ Free s' k := by
  have hcount := freeCount_exampleBoot
  have start := Spaces.ok_start bootLayout_exampleBoot
  rcases start.owned.createUserAddressSpace start.pml4 with
    ⟨-, hnone⟩ | ⟨r, s, -, hrun, hr, -, -, hfree, -⟩
  · change freeCount exampleBoot = 0 at hnone
    omega
  · change pagingCreateUserAddressSpace exampleBoot = _ at hrun
    change freeCount s + 1 = freeCount exampleBoot at hfree
    have hload : usermodeLoadProgram smallProcessor 0x104000 headerDisk smallVolume 2 newProcess
        [0x41] emptyFile exampleBoot ()
          = some (0, { newProcess with pageDirectory := r }, s, ()) := by
      rw [usermodeLoadProgram, headerDisk_opens, hrun]
      simp only [if_neg hr, headerDisk_fails]
    refine ⟨_, s, hload, hr, ?_⟩
    -- Otherwise there would be as many free frames as before.
    by_contra hkept
    push Not at hkept
    have hsubset : (Finset.range (exampleBoot.pmm.bitmapSize * 8)).filter (Free exampleBoot) ⊆
        (Finset.range (s.pmm.bitmapSize * 8)).filter (Free s) := by
      intro k hk
      have hfree' := hkept k (Finset.mem_filter.mp hk).2
      exact Finset.mem_filter.mpr ⟨Finset.mem_range.mpr hfree'.1, hfree'⟩
    have hcard : freeCount exampleBoot ≤ freeCount s := Finset.card_le_card hsubset
    omega

end Curnel.Usermode
