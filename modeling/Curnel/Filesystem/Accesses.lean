/-
Divisions, sector buffer indices and seek loops: what the geometry of a volume has to be
for them.

Beside each function of filesystem.c that divides by a field of `fs_info` or indexes a
sector buffer stands the list of these accesses, in their order, for as many rounds of its
loops as there is fuel. `fs_mount` takes the geometry from the boot sector as it is.
-/

import Curnel.Filesystem.Readdir
import Curnel.Lib.Run

namespace Curnel.Filesystem

open Lib Bytes Word

variable {σ : Type}

/-- What can go wrong with a geometry. -/
inductive Access where
  /-- A division or a remainder. -/
  | divide (divisor : Nat)
  /-- `count` bytes of a sector buffer from `offset` on. -/
  | index (offset count : Nat)
  /-- A round of the seek loop of `fs_read` or `fs_write`. -/
  | advance (pos next : Nat)
deriving DecidableEq

/-- The divisor is not zero, the bytes are in the buffer, and the loop gets on. -/
def Access.Safe : Access → Prop
  | .divide divisor => divisor ≠ 0
  | .index offset count => offset + count ≤ 512
  | .advance pos next => pos < next

instance : DecidablePred Access.Safe := fun access => by
  cases access <;> unfold Access.Safe <;> infer_instance

/-! ### The accesses of each function -/

/-- `fat32_read_fat_entry` and `fat32_write_fat_entry`. -/
def fatEntryAccesses (ata : Ata σ) (info : FsInfo) (cluster : Nat) (d : σ) : List Access :=
  let fatOffset := wmul 32 cluster 4
  let fatSector := wadd 32 info.fatStart (fatOffset / info.bytesPerSector)
  .divide info.bytesPerSector :: .divide info.bytesPerSector ::
    match (ata.readSector fatSector d).1 with
    | none => []
    | some _ => [.index (fatOffset % info.bytesPerSector) 4]

/-- `freeInSector`. -/
def freeInSectorAccesses (info : FsInfo) (sector : Store) (fatSector : Nat) :
    Nat → Nat → List Access
  | 0, _ => []
  | n + 1, i =>
      let cluster := wadd 32 (wmul 32 fatSector info.bytesPerSector) i / 4
      .index i 4 ::
        if readLE sector i 4 &&& 0x0FFFFFFF = 0 ∧ cluster ≥ 2 then []
        else freeInSectorAccesses info sector fatSector n (i + 4)

/-- `allocateFrom`. -/
def allocateFromAccesses (ata : Ata σ) (info : FsInfo) : Nat → Nat → σ → List Access
  | 0, _, _ => []
  | n + 1, fatSector, d =>
      match ata.readSector (wadd 32 info.fatStart fatSector) d with
      | (none, _) => []
      | (some sector, d) =>
          freeInSectorAccesses info sector fatSector ((info.bytesPerSector + 3) / 4) 0 ++
            match freeInSector info sector fatSector ((info.bytesPerSector + 3) / 4) 0 with
            | some cluster => fatEntryAccesses ata info cluster d
            | none => allocateFromAccesses ata info n (fatSector + 1) d

/-- `fat32_allocate_cluster`. -/
def allocateAccesses (ata : Ata σ) (info : FsInfo) (d : σ) : List Access :=
  if info.mounted = false then []
  else allocateFromAccesses ata info (wsub 32 info.dataStart info.fatStart) 0 d

/-- The bytes of the entry at `a` that its name is made of. -/
def nameAccesses (sector : Store) (a : Nat) : List Access :=
  .index a 9 :: if sector (a + 8) ≠ 0x20 then [.index (a + 8) 3] else []

/-- The bytes that are taken from the entry at `a`. -/
def direntAccesses (a : Nat) : List Access :=
  [.index (a + 28) 4, .index (a + 11) 1, .index (a + 20) 2, .index (a + 26) 2]

/-- `findInSector`. -/
def findInSectorAccesses (filename : List UInt8) (sector : Store) : Nat → Nat → List Access
  | 0, _ => []
  | n + 1, j =>
      .index j 1 ::
        if sector j = 0 then []
        else if sector j = 0xE5 then findInSectorAccesses filename sector n (j + 32)
        else
          .index (j + 11) 1 ::
            if sector (j + 11) = 0x0F then findInSectorAccesses filename sector n (j + 32)
            else
              nameAccesses sector j ++
                if shortName sector j = filename then direntAccesses j
                else findInSectorAccesses filename sector n (j + 32)

/-- `scanRoot`. -/
def scanRootAccesses (ata : Ata σ) (info : FsInfo) (filename : List UInt8) :
    Nat → Nat → σ → List Access
  | 0, _, _ => []
  | n + 1, i, d =>
      match ata.readSector (wadd 32 (fat32ClusterToLba info info.rootCluster) i) d with
      | (none, _) => []
      | (some sector, d) =>
          findInSectorAccesses filename sector ((info.bytesPerSector + 31) / 32) 0 ++
            match findInSector filename sector ((info.bytesPerSector + 31) / 32) 0 with
            | some _ => []
            | none => scanRootAccesses ata info filename n (i + 1) d

def fsOpenAccesses (ata : Ata σ) (info : FsInfo) (path : List UInt8) (d : σ) : List Access :=
  if info.mounted = false then []
  else if path = [0x2F] then []
  else scanRootAccesses ata info (path.dropWhile (· = 0x2F)) info.sectorsPerCluster 0 d

/-- `seekToRead`. -/
def seekToReadAccesses (ata : Ata σ) (info : FsInfo) (position : Nat) :
    Nat → Nat → Nat → σ → List Access
  | 0, _, _, _ => []
  | fuel + 1, pos, cluster, d =>
      if wadd 32 pos info.bytesPerCluster ≤ position then
        fatEntryAccesses ata info cluster d ++
          let (next, d) := fat32ReadFatEntry ata info cluster d
          if next ≥ FAT32_EOC then []
          else
            .advance pos (wadd 32 pos info.bytesPerCluster) ::
              seekToReadAccesses ata info position fuel (wadd 32 pos info.bytesPerCluster) next d
      else []

/-- `readLoop`. -/
def readLoopAccesses (ata : Ata σ) (info : FsInfo) : Nat → Nat → Nat → Nat → σ → List Access
  | 0, _, _, _, _ => []
  | fuel + 1, cluster, clusterPos, bytesLeft, d =>
      if bytesLeft > 0 then
        let sectorLba := wadd 32 (fat32ClusterToLba info cluster) (clusterPos / info.bytesPerSector)
        let offset := clusterPos % info.bytesPerSector
        .divide info.bytesPerSector :: .divide info.bytesPerSector ::
          match ata.readSector sectorLba d with
          | (none, _) => []
          | (some _, d) =>
              let room := wsub 32 info.bytesPerSector offset
              let sectorBytes := if room > bytesLeft then bytesLeft else room
              let bytesLeft := bytesLeft - sectorBytes
              let clusterPos := wadd 32 clusterPos sectorBytes
              .index offset sectorBytes ::
                if clusterPos ≥ info.bytesPerCluster then
                  fatEntryAccesses ata info cluster d ++
                    let (next, d) := fat32ReadFatEntry ata info cluster d
                    if next ≥ FAT32_EOC ∧ bytesLeft > 0 then []
                    else readLoopAccesses ata info fuel next 0 bytesLeft d
                else readLoopAccesses ata info fuel cluster clusterPos bytesLeft d
      else []

def fsReadAccesses (ata : Ata σ) (info : FsInfo) (fuel : Nat) (file : File) (size : Nat) (d : σ) :
    List Access :=
  if info.mounted = false then []
  else if file.dirent.flags &&& FS_DIRECTORY ≠ 0 then []
  else if file.position ≥ file.dirent.size then []
  else
    let size :=
      if wadd 64 file.position size > file.dirent.size then file.dirent.size - file.position
      else size
    .divide info.bytesPerCluster ::
      (seekToReadAccesses ata info file.position fuel 0 file.dirent.cluster d ++
        match seekToRead ata info file.position fuel 0 file.dirent.cluster d with
        | some (some cluster, d) =>
            readLoopAccesses ata info fuel cluster (file.position % info.bytesPerCluster) size d
        | _ => [])

/-- `seekToWrite`. -/
def seekToWriteAccesses (ata : Ata σ) (info : FsInfo) (position : Nat) :
    Nat → Nat → Nat → σ → List Access
  | 0, _, _, _ => []
  | fuel + 1, pos, cluster, d =>
      if wadd 32 pos info.bytesPerCluster ≤ position then
        fatEntryAccesses ata info cluster d ++
          let (next, d) := fat32ReadFatEntry ata info cluster d
          if next ≥ FAT32_EOC then
            allocateAccesses ata info d ++
              let (new, d) := fat32AllocateCluster ata info d
              if new = 0 then []
              else
                fatEntryAccesses ata info cluster d ++
                  let d := (fat32WriteFatEntry ata info cluster new d).2
                  .advance pos (wadd 32 pos info.bytesPerCluster) ::
                    seekToWriteAccesses ata info position fuel
                      (wadd 32 pos info.bytesPerCluster) new d
          else
            .advance pos (wadd 32 pos info.bytesPerCluster) ::
              seekToWriteAccesses ata info position fuel (wadd 32 pos info.bytesPerCluster) next d
      else []

/-- `writeLoop`. -/
def writeLoopAccesses (ata : Ata σ) (info : FsInfo) :
    Nat → Nat → Nat → List UInt8 → σ → List Access
  | 0, _, _, _, _ => []
  | fuel + 1, cluster, clusterPos, src, d =>
      if src.length > 0 then
        let sectorLba := wadd 32 (fat32ClusterToLba info cluster) (clusterPos / info.bytesPerSector)
        let offset := clusterPos % info.bytesPerSector
        .divide info.bytesPerSector :: .divide info.bytesPerSector ::
          match ata.readSector sectorLba d with
          | (none, _) => []
          | (some sector, d) =>
              let room := wsub 32 info.bytesPerSector offset
              let sectorBytes := if room > src.length then src.length else room
              let sector := writeBytes sector offset (src.take sectorBytes)
              .index offset sectorBytes ::
                match ata.writeSector sectorLba sector d with
                | (false, _) => []
                | (true, d) =>
                    let src := src.drop sectorBytes
                    let clusterPos := wadd 32 clusterPos sectorBytes
                    if clusterPos ≥ info.bytesPerCluster then
                      fatEntryAccesses ata info cluster d ++
                        let (next, d) := fat32ReadFatEntry ata info cluster d
                        if next ≥ FAT32_EOC ∧ src.length > 0 then
                          allocateAccesses ata info d ++
                            let (new, d) := fat32AllocateCluster ata info d
                            if new = 0 then []
                            else
                              fatEntryAccesses ata info cluster d ++
                                let d := (fat32WriteFatEntry ata info cluster new d).2
                                writeLoopAccesses ata info fuel new 0 src d
                        else writeLoopAccesses ata info fuel next 0 src d
                    else writeLoopAccesses ata info fuel cluster clusterPos src d
      else []

/-- `writeFrom`. -/
def writeFromAccesses (ata : Ata σ) (info : FsInfo) (fuel : Nat) (file : File)
    (buffer : List UInt8) (d : σ) : List Access :=
  seekToWriteAccesses ata info file.position fuel 0 file.dirent.cluster d ++
    match seekToWrite ata info file.position fuel 0 file.dirent.cluster d with
    | some (some cluster, d) =>
        writeLoopAccesses ata info fuel cluster (file.position % info.bytesPerCluster) buffer d
    | _ => []

def fsWriteAccesses (ata : Ata σ) (info : FsInfo) (fuel : Nat) (file : File)
    (buffer : List UInt8) (d : σ) : List Access :=
  if info.mounted = false then []
  else if file.dirent.flags &&& FS_DIRECTORY ≠ 0 then []
  else
    .divide info.bytesPerCluster ::
      if file.dirent.cluster = 0 then
        allocateAccesses ata info d ++
          let (cluster, d) := fat32AllocateCluster ata info d
          if cluster = 0 then []
          else
            writeFromAccesses ata info fuel
              { file with
                dirent := { file.dirent with cluster := cluster }, currentCluster := cluster }
              buffer d
      else writeFromAccesses ata info fuel file buffer d

/-- `seekToEntry`. -/
def seekToEntryAccesses (ata : Ata σ) (info : FsInfo) : Nat → Nat → File → σ → List Access
  | 0, _, _, _ => []
  | fuel + 1, sectorIdx, dir, d =>
      if sectorIdx ≥ info.sectorsPerCluster then
        fatEntryAccesses ata info dir.currentCluster d ++
          let (next, d) := fat32ReadFatEntry ata info dir.currentCluster d
          if next ≥ FAT32_EOC then []
          else
            seekToEntryAccesses ata info fuel (sectorIdx - info.sectorsPerCluster)
              { dir with currentCluster := next } d
      else []

/-- `nextEntry`. -/
def nextEntryAccesses (ata : Ata σ) (info : FsInfo) (place : Place) (d : σ) : List Access :=
  if (place.entryIdx + 1) * 32 ≥ info.bytesPerSector ∧
      place.sectorIdx + 1 ≥ info.sectorsPerCluster then
    fatEntryAccesses ata info place.cluster d
  else []

/-- `readdirLoop`. -/
def readdirLoopAccesses (ata : Ata σ) (info : FsInfo) :
    Nat → Store → Place → File → σ → List Access
  | 0, _, _, _, _ => []
  | fuel + 1, sector, place, dir, d =>
      let entry := place.entryIdx * 32
      let dir := { dir with position := wadd 32 dir.position 32 }
      nextEntryAccesses ata info place d ++
        match nextEntry ata info sector place dir d with
        | (none, _, _) => []
        | (some (sector, place), dir, d) =>
            .index entry 1 ::
              if sector entry = 0 then []
              else if sector entry = 0xE5 then readdirLoopAccesses ata info fuel sector place dir d
              else
                .index (entry + 11) 1 ::
                  if sector (entry + 11) = 0x0F then
                    readdirLoopAccesses ata info fuel sector place dir d
                  else nameAccesses sector entry ++ direntAccesses entry

def fsReaddirAccesses (ata : Ata σ) (info : FsInfo) (fuel : Nat) (dir : File) (d : σ) :
    List Access :=
  if info.mounted = false then []
  else if dir.dirent.flags &&& FS_DIRECTORY = 0 then []
  else
    .divide info.bytesPerSector :: .divide info.bytesPerSector ::
      let sectorIdx := dir.position / info.bytesPerSector
      let entryIdx := dir.position % info.bytesPerSector / 32
      (seekToEntryAccesses ata info fuel sectorIdx dir d ++
        match seekToEntry ata info fuel sectorIdx dir d with
        | some (some sectorIdx, dir, d) =>
            let place : Place := ⟨dir.currentCluster, sectorIdx, entryIdx⟩
            match ata.readSector (place.lba info) d with
            | (none, _) => []
            | (some sector, d) => readdirLoopAccesses ata info fuel sector place dir d
        | _ => [])

/-! ### A geometry that the driver can handle -/

/-- Where the entries of the FAT do not reach over the end of the buffer. A sector of 511 bytes
would have one at offset 510. -/
structure Handled (bytesPerSector : Nat) : Prop where
  positive : 0 < bytesPerSector
  le : bytesPerSector ≤ 512
  ne : bytesPerSector ≠ 511

/-- Every access of the list is safe. -/
def AllSafe (accesses : List Access) : Prop := ∀ access ∈ accesses, access.Safe

theorem allSafe_nil : AllSafe [] := fun _ h => absurd h List.not_mem_nil

theorem allSafe_cons {access : Access} {accesses : List Access} :
    AllSafe (access :: accesses) ↔ access.Safe ∧ AllSafe accesses := List.forall_mem_cons

theorem allSafe_append {first second : List Access} :
    AllSafe (first ++ second) ↔ AllSafe first ∧ AllSafe second := List.forall_mem_append

variable {ata : Ata σ} {info : FsInfo}

theorem fatEntry_safe (handled : Handled info.bytesPerSector) (cluster : Nat) (d : σ) :
    AllSafe (fatEntryAccesses ata info cluster d) := by
  have hdivisor : info.bytesPerSector ≠ 0 := Nat.ne_of_gt handled.positive
  have hoffset : wmul 32 cluster 4 % info.bytesPerSector + 4 ≤ 512 := by
    have hmod := Nat.mod_lt (wmul 32 cluster 4) handled.positive
    have hle := handled.le
    have hne := handled.ne
    -- the offset is a multiple of 4
    obtain ⟨k, hk⟩ : ∃ k, wmul 32 cluster 4 = 4 * k := by
      refine ⟨cluster % 2 ^ 30, ?_⟩
      rw [wmul]
      omega
    rcases Nat.lt_or_ge info.bytesPerSector 510 with hshort | hlong
    · omega
    · rw [hk] at hmod ⊢
      obtain heq | heq : info.bytesPerSector = 510 ∨ info.bytesPerSector = 512 := by omega
      · rw [heq]
        omega
      · rw [heq]
        omega
  refine allSafe_cons.mpr ⟨hdivisor, allSafe_cons.mpr ⟨hdivisor, ?_⟩⟩
  split
  · exact allSafe_nil
  · exact allSafe_cons.mpr ⟨hoffset, allSafe_nil⟩

theorem freeInSector_safe {sector : Store} {fatSector n i : Nat} (hin : i + 4 * n ≤ 512) :
    AllSafe (freeInSectorAccesses info sector fatSector n i) := by
  induction n generalizing i with
  | zero => exact allSafe_nil
  | succ n ih =>
      refine allSafe_cons.mpr ⟨?_, ?_⟩
      · change i + 4 ≤ 512
        omega
      · split
        · exact allSafe_nil
        · exact ih (by omega)

theorem allocate_safe (handled : Handled info.bytesPerSector) (d : σ) :
    AllSafe (allocateAccesses ata info d) := by
  have hfrom : ∀ n fatSector d, AllSafe (allocateFromAccesses ata info n fatSector d) := by
    intro n
    induction n with
    | zero =>
        intro _ _
        exact allSafe_nil
    | succ n ih =>
        intro fatSector d
        rw [allocateFromAccesses]
        split
        · exact allSafe_nil
        · refine allSafe_append.mpr ⟨freeInSector_safe ?_, ?_⟩
          · have := handled.le
            omega
          · split
            · exact fatEntry_safe handled _ _
            · exact ih _ _
  rw [allocateAccesses]
  split
  · exact allSafe_nil
  · exact hfrom _ _ _

/-- Entries of 32 bytes that lie within the buffer. -/
theorem entry_safe {sector : Store} {a : Nat} (hin : a + 32 ≤ 512) :
    AllSafe (nameAccesses sector a) ∧ AllSafe (direntAccesses a) ∧
      (Access.index a 1).Safe ∧ (Access.index (a + 11) 1).Safe := by
  have hindex : ∀ o n, o + n ≤ 32 → (Access.index (a + o) n).Safe := by
    intro o n h
    change a + o + n ≤ 512
    omega
  refine ⟨?_, ?_, hindex 0 1 (by decide), hindex 11 1 (by decide)⟩
  · refine allSafe_cons.mpr ⟨hindex 0 9 (by decide), ?_⟩
    split
    · exact allSafe_cons.mpr ⟨hindex 8 3 (by decide), allSafe_nil⟩
    · exact allSafe_nil
  · intro access h
    simp only [direntAccesses, List.mem_cons, List.not_mem_nil, or_false] at h
    rcases h with rfl | rfl | rfl | rfl
    · exact hindex 28 4 (by decide)
    · exact hindex 11 1 (by decide)
    · exact hindex 20 2 (by decide)
    · exact hindex 26 2 (by decide)

theorem findInSector_safe {filename : List UInt8} {sector : Store} {n j : Nat}
    (hin : j + 32 * n ≤ 512) : AllSafe (findInSectorAccesses filename sector n j) := by
  induction n generalizing j with
  | zero => exact allSafe_nil
  | succ n ih =>
      obtain ⟨hname, hdirent, hfirst, hattribute⟩ := @entry_safe sector j (by omega)
      have hrest := ih (j := j + 32) (by omega)
      refine allSafe_cons.mpr ⟨hfirst, ?_⟩
      split
      · exact allSafe_nil
      split
      · exact hrest
      refine allSafe_cons.mpr ⟨hattribute, ?_⟩
      split
      · exact hrest
      refine allSafe_append.mpr ⟨hname, ?_⟩
      split
      · exact hdirent
      · exact hrest

theorem fsOpen_safe (handled : Handled info.bytesPerSector) (path : List UInt8) (d : σ) :
    AllSafe (fsOpenAccesses ata info path d) := by
  have hscan : ∀ filename n i d, AllSafe (scanRootAccesses ata info filename n i d) := by
    intro filename n
    induction n with
    | zero =>
        intro _ _
        exact allSafe_nil
    | succ n ih =>
        intro i d
        rw [scanRootAccesses]
        split
        · exact allSafe_nil
        · refine allSafe_append.mpr ⟨findInSector_safe ?_, ?_⟩
          · have := handled.le
            omega
          · split
            · exact allSafe_nil
            · exact ih _ _
  rw [fsOpenAccesses]
  split
  · exact allSafe_nil
  split
  · exact allSafe_nil
  · exact hscan _ _ _ _

/-! ### The seek loops -/

/-- A round of a seek loop that has come to a multiple of the cluster size not past the
position gets on, and to such a multiple again. -/
theorem advance_safe (hcluster : 0 < info.bytesPerCluster) {position i : Nat}
    (hposition : (position / info.bytesPerCluster + 1) * info.bytesPerCluster < 2 ^ 32)
    (hi : i ≤ position / info.bytesPerCluster)
    (hreached : wadd 32 (i * info.bytesPerCluster) info.bytesPerCluster ≤ position) :
    wadd 32 (i * info.bytesPerCluster) info.bytesPerCluster = (i + 1) * info.bytesPerCluster ∧
      i + 1 ≤ position / info.bytesPerCluster ∧
      (Access.advance (i * info.bytesPerCluster)
        (wadd 32 (i * info.bytesPerCluster) info.bytesPerCluster)).Safe := by
  have hle : (i + 1) * info.bytesPerCluster
      ≤ (position / info.bytesPerCluster + 1) * info.bytesPerCluster :=
    Nat.mul_le_mul_right _ (by omega)
  have hnext : wadd 32 (i * info.bytesPerCluster) info.bytesPerCluster
      = (i + 1) * info.bytesPerCluster := by
    rw [Nat.succ_mul] at hle ⊢
    exact wadd_of_lt (lt_of_le_of_lt hle hposition)
  rw [hnext] at hreached ⊢
  refine ⟨rfl, (Nat.le_div_iff_mul_le hcluster).mpr hreached, ?_⟩
  change i * info.bytesPerCluster < (i + 1) * info.bytesPerCluster
  rw [Nat.succ_mul]
  omega

theorem seekToRead_safe (handled : Handled info.bytesPerSector)
    (hcluster : 0 < info.bytesPerCluster) {position : Nat}
    (hposition : (position / info.bytesPerCluster + 1) * info.bytesPerCluster < 2 ^ 32)
    {fuel i cluster : Nat} (hi : i ≤ position / info.bytesPerCluster) {d : σ} :
    AllSafe (seekToReadAccesses ata info position fuel (i * info.bytesPerCluster) cluster d) := by
  induction fuel generalizing i cluster d with
  | zero => exact allSafe_nil
  | succ fuel ih =>
      rw [seekToReadAccesses]
      split
      next hreached =>
        obtain ⟨hnext, hmore, hsafe⟩ := advance_safe hcluster hposition hi hreached
        refine allSafe_append.mpr ⟨fatEntry_safe handled _ _, ?_⟩
        dsimp only
        split
        · exact allSafe_nil
        · refine allSafe_cons.mpr ⟨hsafe, ?_⟩
          rw [hnext]
          exact ih hmore
      next => exact allSafe_nil

theorem seekToWrite_safe (handled : Handled info.bytesPerSector)
    (hcluster : 0 < info.bytesPerCluster) {position : Nat}
    (hposition : (position / info.bytesPerCluster + 1) * info.bytesPerCluster < 2 ^ 32)
    {fuel i cluster : Nat} (hi : i ≤ position / info.bytesPerCluster) {d : σ} :
    AllSafe (seekToWriteAccesses ata info position fuel (i * info.bytesPerCluster) cluster d) := by
  induction fuel generalizing i cluster d with
  | zero => exact allSafe_nil
  | succ fuel ih =>
      rw [seekToWriteAccesses]
      split
      next hreached =>
        obtain ⟨hnext, hmore, hsafe⟩ := advance_safe hcluster hposition hi hreached
        refine allSafe_append.mpr ⟨fatEntry_safe handled _ _, ?_⟩
        dsimp only
        split
        · refine allSafe_append.mpr ⟨allocate_safe handled _, ?_⟩
          split
          · exact allSafe_nil
          · refine allSafe_append.mpr ⟨fatEntry_safe handled _ _, allSafe_cons.mpr ⟨hsafe, ?_⟩⟩
            rw [hnext]
            exact ih hmore
        · refine allSafe_cons.mpr ⟨hsafe, ?_⟩
          rw [hnext]
          exact ih hmore
      next => exact allSafe_nil

/-! ### The copying loops -/

/-- What is copied of a sector lies within it. -/
theorem part_safe (handled : Handled info.bytesPerSector) (pos left : Nat) :
    (Access.index (pos % info.bytesPerSector)
      (if wsub 32 info.bytesPerSector (pos % info.bytesPerSector) > left then left
        else wsub 32 info.bytesPerSector (pos % info.bytesPerSector))).Safe := by
  have hmod := Nat.mod_lt pos handled.positive
  have hle := handled.le
  rw [wsub_of_le (by omega) (Nat.le_of_lt hmod)]
  change _ + _ ≤ 512
  split <;> omega

theorem readLoop_safe (handled : Handled info.bytesPerSector) {fuel cluster pos left : Nat}
    {d : σ} : AllSafe (readLoopAccesses ata info fuel cluster pos left d) := by
  have hdivisor : info.bytesPerSector ≠ 0 := Nat.ne_of_gt handled.positive
  induction fuel generalizing cluster pos left d with
  | zero => exact allSafe_nil
  | succ fuel ih =>
      rw [readLoopAccesses]
      split
      next =>
        refine allSafe_cons.mpr ⟨hdivisor, allSafe_cons.mpr ⟨hdivisor, ?_⟩⟩
        split
        next => exact allSafe_nil
        next =>
          refine allSafe_cons.mpr ⟨part_safe handled _ _, ?_⟩
          dsimp only
          generalize (if wsub 32 info.bytesPerSector (pos % info.bytesPerSector) > left then left
            else wsub 32 info.bytesPerSector (pos % info.bytesPerSector)) = n
          split
          next =>
            refine allSafe_append.mpr ⟨fatEntry_safe handled _ _, ?_⟩
            split
            · exact allSafe_nil
            · exact ih
          next => exact ih
      next => exact allSafe_nil

theorem writeLoop_safe (handled : Handled info.bytesPerSector) {fuel cluster pos : Nat}
    {src : List UInt8} {d : σ} : AllSafe (writeLoopAccesses ata info fuel cluster pos src d) := by
  have hdivisor : info.bytesPerSector ≠ 0 := Nat.ne_of_gt handled.positive
  induction fuel generalizing cluster pos src d with
  | zero => exact allSafe_nil
  | succ fuel ih =>
      rw [writeLoopAccesses]
      split
      next =>
        refine allSafe_cons.mpr ⟨hdivisor, allSafe_cons.mpr ⟨hdivisor, ?_⟩⟩
        split
        next => exact allSafe_nil
        next =>
          refine allSafe_cons.mpr ⟨part_safe handled _ _, ?_⟩
          split
          next => exact allSafe_nil
          next =>
            dsimp only
            generalize (if wsub 32 info.bytesPerSector (pos % info.bytesPerSector) > src.length
              then src.length else wsub 32 info.bytesPerSector (pos % info.bytesPerSector)) = n
            split
            next =>
              refine allSafe_append.mpr ⟨fatEntry_safe handled _ _, ?_⟩
              split
              next =>
                refine allSafe_append.mpr ⟨allocate_safe handled _, ?_⟩
                split
                · exact allSafe_nil
                · exact allSafe_append.mpr ⟨fatEntry_safe handled _ _, ih⟩
              next => exact ih
            next => exact ih
      next => exact allSafe_nil

/-! ### Whole calls -/

/-- The position lies in a cluster that ends below 2³². -/
def EndsBelow (info : FsInfo) (position : Nat) : Prop :=
  (position / info.bytesPerCluster + 1) * info.bytesPerCluster < 2 ^ 32

instance (info : FsInfo) (position : Nat) : Decidable (EndsBelow info position) := by
  unfold EndsBelow
  infer_instance

/-- A handle of a regular file is one of a volume with clusters. -/
def HasClusters (info : FsInfo) (file : File) : Prop :=
  file.dirent.flags &&& FS_DIRECTORY = 0 → 0 < info.bytesPerCluster

theorem fsRead_safe (handled : Handled info.bytesPerSector) {file : File}
    (clusters : HasClusters info file) (hposition : EndsBelow info file.position) (fuel size : Nat)
    (d : σ) : AllSafe (fsReadAccesses ata info fuel file size d) := by
  rw [fsReadAccesses]
  split
  next => exact allSafe_nil
  split
  next => exact allSafe_nil
  next hregular =>
    split
    next => exact allSafe_nil
    next =>
      have hcluster := clusters (not_not.mp hregular)
      have hseek := @seekToRead_safe _ ata info handled hcluster _ hposition fuel 0
        file.dirent.cluster (Nat.zero_le _) d
      rw [Nat.zero_mul] at hseek
      refine allSafe_cons.mpr ⟨Nat.ne_of_gt hcluster, allSafe_append.mpr ⟨hseek, ?_⟩⟩
      split
      · exact readLoop_safe handled
      · exact allSafe_nil

theorem writeFrom_safe (handled : Handled info.bytesPerSector)
    (hcluster : 0 < info.bytesPerCluster) {file : File}
    (hposition : EndsBelow info file.position) (fuel : Nat) (buffer : List UInt8) (d : σ) :
    AllSafe (writeFromAccesses ata info fuel file buffer d) := by
  have hseek := @seekToWrite_safe _ ata info handled hcluster _ hposition fuel 0
    file.dirent.cluster (Nat.zero_le _) d
  rw [Nat.zero_mul] at hseek
  refine allSafe_append.mpr ⟨hseek, ?_⟩
  split
  · exact writeLoop_safe handled
  · exact allSafe_nil

theorem fsWrite_safe (handled : Handled info.bytesPerSector) {file : File}
    (clusters : HasClusters info file) (hposition : EndsBelow info file.position) (fuel : Nat)
    (buffer : List UInt8) (d : σ) : AllSafe (fsWriteAccesses ata info fuel file buffer d) := by
  rw [fsWriteAccesses]
  split
  next => exact allSafe_nil
  split
  next => exact allSafe_nil
  next hregular =>
    have hcluster := clusters (not_not.mp hregular)
    refine allSafe_cons.mpr ⟨Nat.ne_of_gt hcluster, ?_⟩
    split
    · refine allSafe_append.mpr ⟨allocate_safe handled _, ?_⟩
      dsimp only
      split
      · exact allSafe_nil
      · exact @writeFrom_safe _ ata info handled hcluster { file with
          dirent := { file.dirent with cluster := (fat32AllocateCluster ata info d).1 }
          currentCluster := (fat32AllocateCluster ata info d).1 } hposition _ _ _
    · exact writeFrom_safe handled hcluster hposition _ _ _

theorem seekToEntry_safe (handled : Handled info.bytesPerSector) {fuel sectorIdx : Nat}
    {dir : File} {d : σ} : AllSafe (seekToEntryAccesses ata info fuel sectorIdx dir d) := by
  induction fuel generalizing sectorIdx dir d with
  | zero => exact allSafe_nil
  | succ fuel ih =>
      rw [seekToEntryAccesses]
      split
      · refine allSafe_append.mpr ⟨fatEntry_safe handled _ _, ?_⟩
        dsimp only
        split
        · exact allSafe_nil
        · exact ih
      · exact allSafe_nil

/-- An entry begins in its sector, and so does the one that follows it. -/
theorem nextEntry_entryIdx {sector sector' : Store} {place place' : Place} {dir dir' : File}
    {d d' : σ} (handled : Handled info.bytesPerSector)
    (h : nextEntry ata info sector place dir d = (some (sector', place'), dir', d')) :
    place'.entryIdx * 32 < info.bytesPerSector := by
  have hpositive := handled.positive
  have hzero : 0 * 32 < info.bytesPerSector := by omega
  have hplace : ∀ {p : Place} {s : Store} {f : File} {e : σ},
      p.entryIdx * 32 < info.bytesPerSector →
      ((some (s, p), f, e) : Option (Store × Place) × File × σ)
        = (some (sector', place'), dir', d') →
      place'.entryIdx * 32 < info.bytesPerSector := by
    intro p s f e hlt heq
    obtain ⟨-, rfl⟩ := Prod.mk.inj (Option.some.inj (Prod.mk.inj heq).1)
    exact hlt
  rw [nextEntry] at h
  dsimp only at h
  split at h
  next =>
    split at h
    next =>
      split at h
      next => cases h
      next =>
        split at h
        next => cases h
        next =>
          refine hplace ?_ h
          exact hzero
    next =>
      split at h
      next => cases h
      next =>
        refine hplace ?_ h
        exact hzero
  next hlt =>
    refine hplace ?_ h
    exact Nat.lt_of_not_le hlt

theorem readdirLoop_safe (handled : Handled info.bytesPerSector) {fuel : Nat} {sector : Store}
    {place : Place} {dir : File} {d : σ} (hplace : place.entryIdx * 32 < info.bytesPerSector) :
    AllSafe (readdirLoopAccesses ata info fuel sector place dir d) := by
  induction fuel generalizing sector place dir d with
  | zero => exact allSafe_nil
  | succ fuel ih =>
      have hle := handled.le
      rw [readdirLoopAccesses]
      refine allSafe_append.mpr ⟨?_, ?_⟩
      · rw [nextEntryAccesses]
        split
        · exact fatEntry_safe handled _ _
        · exact allSafe_nil
      · split
        next => exact allSafe_nil
        next sector' place' dir' d' hnext =>
          have hplace' := nextEntry_entryIdx handled hnext
          obtain ⟨hname, hdirent, hfirst, hattribute⟩ :=
            @entry_safe sector' (place.entryIdx * 32) (by omega)
          refine allSafe_cons.mpr ⟨hfirst, ?_⟩
          split
          · exact allSafe_nil
          split
          · exact ih hplace'
          refine allSafe_cons.mpr ⟨hattribute, ?_⟩
          split
          · exact ih hplace'
          · exact allSafe_append.mpr ⟨hname, hdirent⟩

theorem fsReaddir_safe (handled : Handled info.bytesPerSector) (fuel : Nat) (dir : File) (d : σ) :
    AllSafe (fsReaddirAccesses ata info fuel dir d) := by
  have hdivisor : info.bytesPerSector ≠ 0 := Nat.ne_of_gt handled.positive
  have hentry : dir.position % info.bytesPerSector / 32 * 32 < info.bytesPerSector :=
    lt_of_le_of_lt (Nat.div_mul_le_self _ _) (Nat.mod_lt _ handled.positive)
  rw [fsReaddirAccesses]
  split
  next => exact allSafe_nil
  split
  next => exact allSafe_nil
  next =>
    refine allSafe_cons.mpr ⟨hdivisor, allSafe_cons.mpr ⟨hdivisor, ?_⟩⟩
    refine allSafe_append.mpr ⟨seekToEntry_safe handled, ?_⟩
    split
    · dsimp only
      split
      · exact allSafe_nil
      · exact readdirLoop_safe handled hentry
    · exact allSafe_nil

end Curnel.Filesystem
