/-
The geometries that fs_mount would have to reject.

`Handled` says which sector sizes the driver can handle: in every run of calls after a mount
with such a sector size, whose reads and writes are made at positions in clusters that end
below 2³², every access is safe (`run_safe`). With any other sector size there is a disk and a
run with an access that is not (`handled_of_safe`).
-/

import Curnel.Filesystem.Accesses
import Curnel.Filesystem.Allocate

namespace Curnel.Filesystem

open Lib Bytes Word

variable {σ : Type} {ata : Ata σ} {info : FsInfo}

/-! ### Every run after a mount -/

/-- The handles that `fs_open` has filled in, and the disk. -/
structure Driver (σ : Type) where
  handles : List File
  d : σ

/-- The calls that may follow `fs_mount`, on a handle by its number. -/
inductive Operation where
  | fsOpen (path : List UInt8)
  | fsRead (handle size : Nat)
  | fsWrite (handle : Nat) (buffer : List UInt8)
  | fsSeek (handle position : Nat)
  | fsReaddir (handle : Nat)

/-- A call that returns, with any result. -/
inductive OperationStep (ata : Ata σ) (info : FsInfo) :
    Driver σ → Operation → Driver σ → Prop where
  | opens {s : Driver σ} {path : List UInt8} {blank file : File} {d : σ} :
      fsOpen ata info path blank s.d = (FS_SUCCESS, file, d) →
      OperationStep ata info s (.fsOpen path) ⟨s.handles ++ [file], d⟩
  | misses {s : Driver σ} {path : List UInt8} {blank file : File} {result : Int} {d : σ} :
      fsOpen ata info path blank s.d = (result, file, d) → result ≠ FS_SUCCESS →
      OperationStep ata info s (.fsOpen path) ⟨s.handles, d⟩
  | reads {s : Driver σ} {h size fuel : Nat} {file file' : File} {result : Int}
      {bytes : List UInt8} {d : σ} :
      s.handles[h]? = some file →
      fsRead ata info fuel file size s.d = some (result, bytes, file', d) →
      OperationStep ata info s (.fsRead h size) ⟨s.handles.set h file', d⟩
  | writes {s : Driver σ} {h fuel : Nat} {buffer : List UInt8} {file file' : File} {result : Int}
      {d : σ} :
      s.handles[h]? = some file →
      fsWrite ata info fuel file buffer s.d = some (result, file', d) →
      OperationStep ata info s (.fsWrite h buffer) ⟨s.handles.set h file', d⟩
  | seeks {s : Driver σ} {h position : Nat} {file file' : File} {result : Int} :
      s.handles[h]? = some file → fsSeek info file position = (result, file') →
      OperationStep ata info s (.fsSeek h position) ⟨s.handles.set h file', s.d⟩
  | readdirs {s : Driver σ} {h fuel : Nat} {file file' : File} {result : Int}
      {dirent : Option Dirent} {d : σ} :
      s.handles[h]? = some file →
      fsReaddir ata info fuel file s.d = some (result, dirent, file', d) →
      OperationStep ata info s (.fsReaddir h) ⟨s.handles.set h file', d⟩

/-- What a call accesses, whether it returns or not. -/
def accesses (ata : Ata σ) (info : FsInfo) (fuel : Nat) (s : Driver σ) : Operation → List Access
  | .fsOpen path => fsOpenAccesses ata info path s.d
  | .fsRead h size =>
      match s.handles[h]? with
      | none => []
      | some file => fsReadAccesses ata info fuel file size s.d
  | .fsWrite h buffer =>
      match s.handles[h]? with
      | none => []
      | some file => fsWriteAccesses ata info fuel file buffer s.d
  | .fsSeek _ _ => []
  | .fsReaddir h =>
      match s.handles[h]? with
      | none => []
      | some file => fsReaddirAccesses ata info fuel file s.d

/-- Reads and writes are made at positions whose clusters end below 2³². -/
def Below (info : FsInfo) (s : Driver σ) : Operation → Prop
  | .fsRead h _ => ∀ file, s.handles[h]? = some file → EndsBelow info file.position
  | .fsWrite h _ => ∀ file, s.handles[h]? = some file → EndsBelow info file.position
  | _ => True

theorem mount_geometry {device : Nat} {old : FsInfo} {d₀ d : σ}
    (hmount : fsMount ata device old d₀ = (FS_SUCCESS, info, d)) :
    info.bytesPerCluster = wmul 32 info.bytesPerSector info.sectorsPerCluster ∧
      info.bytesPerSector < 2 ^ 16 ∧ info.sectorsPerCluster < 2 ^ 8 := by
  rw [fsMount] at hmount
  dsimp only at hmount
  split at hmount
  next => cases hmount
  next =>
    split at hmount
    next => cases hmount
    next =>
      split at hmount
      next => cases hmount
      next =>
        obtain ⟨rfl, -⟩ := Prod.mk.inj (Prod.mk.inj hmount).2
        exact ⟨rfl, readLE_lt _ _ 2, readLE_lt _ _ 1⟩

/-- `fs_open` finds files only where a cluster has a sector. -/
theorem fsOpen_hasClusters
    (hcluster : 0 < info.sectorsPerCluster → 0 < info.bytesPerCluster) {path : List UInt8}
    {blank file : File} {d d' : σ}
    (h : fsOpen ata info path blank d = (FS_SUCCESS, file, d')) : HasClusters info file := by
  intro hregular
  refine hcluster (Nat.pos_of_ne_zero fun hnone => ?_)
  rw [fsOpen] at h
  split at h
  next => cases h
  split at h
  next =>
    obtain ⟨rfl, -⟩ := Prod.mk.inj (Prod.mk.inj h).2
    exact absurd hregular (by decide : ¬ FS_DIRECTORY &&& FS_DIRECTORY = 0)
  next =>
    rw [hnone, scanRoot] at h
    cases h

/-- A call leaves the flags of its handle alone. -/
theorem fsRead_flags {fuel size : Nat} {file file' : File} {d d' : σ} {result : Int}
    {bytes : List UInt8}
    (h : fsRead ata info fuel file size d = some (result, bytes, file', d')) :
    file'.dirent.flags = file.dirent.flags := by
  rw [fsRead] at h
  dsimp only at h
  split at h
  next => cases h; rfl
  split at h
  next => cases h; rfl
  split at h
  next => cases h; rfl
  split at h
  next => cases h
  next => cases h; rfl
  next =>
    split at h
    next => cases h
    next => cases h; rfl
    next => cases h; rfl

theorem writeFrom_flags {fuel : Nat} {file file' : File} {buffer : List UInt8} {d d' : σ}
    {result : Int} (h : writeFrom ata info fuel file buffer d = some (result, file', d')) :
    file'.dirent.flags = file.dirent.flags := by
  rw [writeFrom] at h
  split at h
  next => cases h
  next => cases h; rfl
  next =>
    split at h
    next => cases h
    next => cases h; rfl
    next =>
      obtain ⟨rfl, -⟩ := Prod.mk.inj (Prod.mk.inj (Option.some.inj h)).2
      split <;> rfl

theorem fsWrite_flags {fuel : Nat} {file file' : File} {buffer : List UInt8} {d d' : σ}
    {result : Int} (h : fsWrite ata info fuel file buffer d = some (result, file', d')) :
    file'.dirent.flags = file.dirent.flags := by
  rw [fsWrite] at h
  dsimp only at h
  split at h
  next => cases h; rfl
  split at h
  next => cases h; rfl
  split at h
  next =>
    split at h
    next => cases h; rfl
    next => exact (writeFrom_flags h).trans rfl
  next => exact writeFrom_flags h

theorem fsSeek_flags {position : Nat} {file file' : File} {result : Int}
    (h : fsSeek info file position = (result, file')) : file'.dirent.flags = file.dirent.flags := by
  rw [fsSeek] at h
  split at h
  next => cases h; rfl
  next => cases h; rfl

theorem seekToEntry_flags {fuel sectorIdx : Nat} {dir dir' : File} {d d' : σ} {r : Option Nat}
    (h : seekToEntry ata info fuel sectorIdx dir d = some (r, dir', d')) :
    dir'.dirent.flags = dir.dirent.flags := by
  induction fuel generalizing sectorIdx dir d with
  | zero => cases h
  | succ fuel ih =>
      rw [seekToEntry] at h
      dsimp only at h
      split at h
      next =>
        split at h
        next => cases h; rfl
        next => exact (ih h).trans rfl
      next => cases h; rfl

theorem nextEntry_flags {sector : Store} {place : Place} {dir dir' : File} {d d' : σ}
    {r : Option (Store × Place)} (h : nextEntry ata info sector place dir d = (r, dir', d')) :
    dir'.dirent.flags = dir.dirent.flags := by
  rw [nextEntry] at h
  dsimp only at h
  split at h
  next =>
    split at h
    next =>
      split at h
      next => cases h; rfl
      next =>
        split at h
        next => cases h; rfl
        next => cases h; rfl
    next =>
      split at h
      next => cases h; rfl
      next => cases h; rfl
  next => cases h; rfl

theorem readdirLoop_flags {fuel : Nat} {sector : Store} {place : Place} {dir dir' : File}
    {d d' : σ} {result : Int} {dirent : Option Dirent}
    (h : readdirLoop ata info fuel sector place dir d = some (result, dirent, dir', d')) :
    dir'.dirent.flags = dir.dirent.flags := by
  induction fuel generalizing sector place dir d with
  | zero => cases h
  | succ fuel ih =>
      rw [readdirLoop] at h
      split at h
      next hnext =>
        cases h
        exact (nextEntry_flags hnext).trans rfl
      next hnext =>
        have hflags := nextEntry_flags hnext
        split at h
        next => cases h; exact hflags.trans rfl
        split at h
        next => exact (ih h).trans (hflags.trans rfl)
        split at h
        next => exact (ih h).trans (hflags.trans rfl)
        next => cases h; exact hflags.trans rfl

theorem fsReaddir_flags {fuel : Nat} {dir dir' : File} {d d' : σ} {result : Int}
    {dirent : Option Dirent}
    (h : fsReaddir ata info fuel dir d = some (result, dirent, dir', d')) :
    dir'.dirent.flags = dir.dirent.flags := by
  rw [fsReaddir] at h
  dsimp only at h
  split at h
  next => cases h; rfl
  split at h
  next => cases h; rfl
  split at h
  next => cases h
  next hseek =>
    cases h
    exact seekToEntry_flags hseek
  next hseek =>
    have hflags := seekToEntry_flags hseek
    split at h
    next =>
      cases h
      exact hflags
    next => exact (readdirLoop_flags h).trans hflags

/-- Every call keeps the handles of files on volumes with clusters. -/
theorem OperationStep.hasClusters
    (hcluster : 0 < info.sectorsPerCluster → 0 < info.bytesPerCluster) {s t : Driver σ}
    {op : Operation} (step : OperationStep ata info s op t)
    (h : ∀ file ∈ s.handles, HasClusters info file) :
    ∀ file ∈ t.handles, HasClusters info file := by
  have hset : ∀ {i : Nat} {file file' : File}, s.handles[i]? = some file →
      file'.dirent.flags = file.dirent.flags →
      ∀ f ∈ s.handles.set i file', HasClusters info f := by
    intro i file file' hfile hflags f hf
    rcases List.mem_or_eq_of_mem_set hf with hold | rfl
    · exact h f hold
    · have := h file (List.mem_of_getElem? hfile)
      rwa [HasClusters, hflags]
  cases step with
  | opens hopen =>
      intro f hf
      rcases List.mem_append.mp hf with hold | hnew
      · exact h f hold
      · rw [List.mem_singleton.mp hnew]
        exact fsOpen_hasClusters hcluster hopen
  | misses => exact h
  | reads hfile hread => exact hset hfile (fsRead_flags hread)
  | writes hfile hwrite => exact hset hfile (fsWrite_flags hwrite)
  | seeks hfile hseek => exact hset hfile (fsSeek_flags hseek)
  | readdirs hfile hreaddir => exact hset hfile (fsReaddir_flags hreaddir)

/-- The accesses of one call. -/
theorem accesses_safe (handled : Handled info.bytesPerSector) {s : Driver σ}
    (h : ∀ file ∈ s.handles, HasClusters info file) {op : Operation} (below : Below info s op)
    (fuel : Nat) : AllSafe (accesses ata info fuel s op) := by
  cases op with
  | fsOpen path => exact fsOpen_safe handled path s.d
  | fsRead i size =>
      rw [accesses]
      split
      next => exact allSafe_nil
      next file hfile =>
        exact fsRead_safe handled (h file (List.mem_of_getElem? hfile)) (below file hfile) _ _ _
  | fsWrite i buffer =>
      rw [accesses]
      split
      next => exact allSafe_nil
      next file hfile =>
        exact fsWrite_safe handled (h file (List.mem_of_getElem? hfile)) (below file hfile) _ _ _
  | fsSeek i position => exact allSafe_nil
  | fsReaddir i =>
      rw [accesses]
      split
      next => exact allSafe_nil
      next file hfile => exact fsReaddir_safe handled _ _ _

/-- Whatever the calls after the mount have been, the accesses of the next one are safe. -/
theorem run_safe {device : Nat} {old : FsInfo} {d₀ d : σ}
    (hmount : fsMount ata device old d₀ = (FS_SUCCESS, info, d))
    (handled : Handled info.bytesPerSector) {ops : List Operation} {s : Driver σ}
    (run : Run (fun s op t => OperationStep ata info s op t ∧ Below info s op) ⟨[], d⟩ ops s)
    {op : Operation} (below : Below info s op) (fuel : Nat) :
    AllSafe (accesses ata info fuel s op) := by
  obtain ⟨hbytes, hsector, hsectors⟩ := mount_geometry hmount
  have hcluster : 0 < info.sectorsPerCluster → 0 < info.bytesPerCluster := by
    intro hpositive
    have hmul := Nat.mul_lt_mul'' hsector hsectors
    rw [hbytes, wmul_of_lt (lt_of_lt_of_le hmul (by decide))]
    exact Nat.mul_pos handled.positive hpositive
  refine accesses_safe handled ?_ below fuel
  refine run.invariant (I := fun s => ∀ file ∈ s.handles, HasClusters info file)
    (fun h step => step.1.hasClusters hcluster h) ?_
  intro file h
  exact absurd h List.not_mem_nil

/-! ### Disks with other geometries -/

/-- A disk with one sector that is read as the MBR and as the boot sector, and the sector
`data` everywhere else. -/
def twoSectors (boot data : Store) : Ata Unit where
  readSector lba _ := (some (if lba = 0 then boot else data), ())
  writeSector _ _ _ := (true, ())

/-- A boot sector with the geometry, and with the first data sector right behind it. -/
def bootSector (bytesPerSector sectorsPerCluster rootCluster : Nat) : Store :=
  writeLE (writeLE (writeLE (writeLE (writeLE (fun _ => 0) 66 1 FAT32_SIGNATURE) 44 4 rootCluster)
    14 2 1) 13 1 sectorsPerCluster) 11 2 bytesPerSector

/-- A directory that begins with a large file, A, in the given cluster. -/
def fileSector (cluster : Nat) : Store :=
  writeLE (writeLE (writeLE (fun a => if a = 0 then 0x41 else 0x20) 20 2 0) 26 2 cluster)
    28 4 0x7FFFFFFF

/-- What `fs_mount` makes of that boot sector. -/
def geometryInfo (bytesPerSector sectorsPerCluster rootCluster : Nat) : FsInfo where
  device := 0
  fatStart := 1
  dataStart := 1
  rootCluster := rootCluster
  sectorsPerCluster := sectorsPerCluster
  bytesPerSector := bytesPerSector
  bytesPerCluster := wmul 32 bytesPerSector sectorsPerCluster
  mounted := true

theorem readLE_zero (a n : Nat) : readLE (fun _ => 0) a n = 0 := by
  induction n generalizing a with
  | zero => rfl
  | succ n ih =>
      rw [readLE, ih]
      rfl

theorem fsMount_bootSector {bps spc root : Nat} (hbps : bps < 2 ^ 16) (hspc : spc < 2 ^ 8)
    (hroot : root < 2 ^ 32) (data : Store) :
    fsMount (twoSectors (bootSector bps spc root) data) 0 unmounted ()
      = (FS_SUCCESS, geometryInfo bps spc root, ()) := by
  have hbpb : Bpb.read (bootSector bps spc root) 0 = ⟨bps, spc, 1, 0, 0, root, FAT32_SIGNATURE⟩ := by
    simp (disch := decide) only [Bpb.read, bootSector, readLE_writeLE_same,
      readLE_writeLE_disjoint, readLE_zero, Nat.zero_add]
    rw [Nat.mod_eq_of_lt (b := 256 ^ 2) hbps, Nat.mod_eq_of_lt (b := 256 ^ 1) hspc,
      Nat.mod_eq_of_lt (b := 256 ^ 4) hroot]
    rfl
  have hstart : readLE (bootSector bps spc root) (0x1BE + 0x08) 4 = 0 := by
    simp (disch := decide) only [bootSector, readLE_writeLE_disjoint, readLE_zero]
  rw [fsMount]
  simp only [twoSectors, if_true, hstart, hbpb]
  rfl

theorem geometryInfo_mounted {bps spc root : Nat} :
    ¬ (geometryInfo bps spc root).mounted = false := by
  intro h
  cases h

variable {bps spc cluster : Nat}

/-- With such a boot sector every FAT entry can be read, where its bytes are. -/
theorem index_mem_fatEntry (boot data : Store) :
    .index (wmul 32 cluster 4 % info.bytesPerSector) 4
      ∈ fatEntryAccesses (twoSectors boot data) info cluster () :=
  List.mem_cons_of_mem _ (List.mem_cons_of_mem _ (List.mem_singleton.mpr rfl))

theorem fsOpen_fileSector (hbps : 0 < bps) (hspc : 0 < spc) (hcluster : cluster < 2 ^ 16)
    (boot : Store) (blank : File) :
    fsOpen (twoSectors boot (fileSector cluster)) (geometryInfo bps spc 2) [0x2F, 0x41] blank ()
      = (FS_SUCCESS, opened (geometryInfo bps spc 2) ⟨[0x41], 0x7FFFFFFF, FS_FILE, cluster⟩, ()) := by
  obtain ⟨n, hn⟩ : ∃ n, (bps + 31) / 32 = n + 1 := ⟨(bps + 31) / 32 - 1, by omega⟩
  obtain ⟨m, rfl⟩ : ∃ m, spc = m + 1 := ⟨spc - 1, by omega⟩
  have hfind : findInSector [0x41] (fileSector cluster) (n + 1) 0
      = some ⟨[0x41], 0x7FFFFFFF, FS_FILE, cluster⟩ := by
    have hname : shortName (fileSector cluster) 0 = [0x41] := rfl
    have hattribute : fileSector cluster 11 = 0x20 := rfl
    have hsize : readLE (fileSector cluster) 28 4 = 0x7FFFFFFF := by
      rw [fileSector, readLE_writeLE_same]
      rfl
    have hhigh : readLE (fileSector cluster) 20 2 = 0 := by
      simp (disch := decide) only [fileSector, readLE_writeLE_disjoint, readLE_writeLE_same]
      rfl
    have hlow : readLE (fileSector cluster) 26 2 = cluster := by
      simp (disch := decide) only [fileSector, readLE_writeLE_disjoint, readLE_writeLE_same]
      exact Nat.mod_eq_of_lt hcluster
    have hflags : readLE (fileSector cluster) 11 1 = 0x20 := by
      rw [readLE_one, hattribute]
      rfl
    have hentry : entryDirent (fileSector cluster) 0
        = ⟨[0x41], 0x7FFFFFFF, FS_FILE, cluster⟩ := by
      simp only [entryDirent, Nat.zero_add, hname, hsize, hhigh, hlow, hflags, Nat.zero_shiftLeft,
        Nat.zero_or]
      rfl
    have hfirst : fileSector cluster 0 = 0x41 := rfl
    rw [findInSector, hfirst, if_neg (by decide), if_neg (by decide), Nat.zero_add, hattribute,
      if_neg (by decide), if_pos hname, hentry]
  have hlba : wadd 32 (fat32ClusterToLba (geometryInfo bps (m + 1) 2) 2) 0 = 1 := by
    have hsub : wsub 32 2 2 = 0 := rfl
    rw [fat32ClusterToLba, hsub, wmul, Nat.zero_mul]
    rfl
  have hscan : scanRoot (twoSectors boot (fileSector cluster)) (geometryInfo bps (m + 1) 2)
      [0x41] (m + 1) 0 () = (.ok ⟨[0x41], 0x7FFFFFFF, FS_FILE, cluster⟩, ()) := by
    rw [scanRoot]
    dsimp only [geometryInfo] at hlba ⊢
    rw [hlba, hn]
    dsimp only [twoSectors]
    rw [if_neg (by decide : ¬ 1 = 0), hfind]
  have hpath : ([0x2F, 0x41] : List UInt8).dropWhile (· = 0x2F) = [0x41] := rfl
  rw [fsOpen, if_neg geometryInfo_mounted, if_neg (by decide), hpath]
  dsimp only [geometryInfo] at hscan ⊢
  rw [hscan]

/-- A mounted driver whose calls are safe as long as they are made below 2³². -/
def SafeBelow (ata : Ata σ) (info : FsInfo) (d : σ) : Prop :=
  ∀ ops s, Run (fun s op t => OperationStep ata info s op t ∧ Below info s op) ⟨[], d⟩ ops s →
    ∀ op, Below info s op → ∀ fuel, AllSafe (accesses ata info fuel s op)

theorem readdir_divides {dir : File} {d : σ} {fuel : Nat} (hmounted : ¬ info.mounted = false)
    (hdirectory : ¬ dir.dirent.flags &&& FS_DIRECTORY = 0) :
    .divide info.bytesPerSector ∈ fsReaddirAccesses ata info fuel dir d := by
  rw [fsReaddirAccesses, if_neg hmounted, if_neg hdirectory]
  exact List.mem_cons_self

/-- A directory whose position is in its first sector, on a volume without clusters: the FAT is
read for its cluster. -/
theorem readdir_reads_fat {dir : File} {d : σ} (hmounted : ¬ info.mounted = false)
    (hdirectory : ¬ dir.dirent.flags &&& FS_DIRECTORY = 0) (hnone : info.sectorsPerCluster = 0)
    {access : Access} (h : access ∈ fatEntryAccesses ata info dir.currentCluster d) :
    access ∈ fsReaddirAccesses ata info 1 dir d := by
  rw [fsReaddirAccesses, if_neg hmounted, if_neg hdirectory]
  refine List.mem_cons_of_mem _ (List.mem_cons_of_mem _ (List.mem_append_left _ ?_))
  rw [seekToEntryAccesses, hnone, if_pos (Nat.zero_le _)]
  exact List.mem_append_left _ h

/-- A position in the second cluster of a file: the FAT is read for the first one. -/
theorem read_reads_fat {file : File} {size : Nat} {d : σ} (hmounted : ¬ info.mounted = false)
    (hregular : file.dirent.flags &&& FS_DIRECTORY = 0)
    (hposition : file.position = info.bytesPerCluster)
    (hlt : info.bytesPerCluster < file.dirent.size) (hsize : file.dirent.size < 2 ^ 32)
    {access : Access} (h : access ∈ fatEntryAccesses ata info file.dirent.cluster d) :
    access ∈ fsReadAccesses ata info 1 file size d := by
  have hreached : wadd 32 0 info.bytesPerCluster ≤ info.bytesPerCluster := by
    rw [wadd_of_lt (by omega), Nat.zero_add]
  rw [fsReadAccesses, if_neg hmounted, if_neg (not_not.mpr hregular), if_neg (by omega)]
  refine List.mem_cons_of_mem _ (List.mem_append_left _ ?_)
  rw [seekToReadAccesses, hposition, if_pos hreached]
  exact List.mem_append_left _ h

/-- A FAT entry that reaches over the end of the buffer is read where the file A is in its
cluster, or the root directory if there are no files. -/
theorem unsafe_of_entry (hbps : 0 < bps) (hlt : bps < 2 ^ 16) (hspc : spc < 2 ^ 8)
    (hcluster : cluster < 2 ^ 16) (hentry : 512 < wmul 32 cluster 4 % bps + 4) :
    ∃ root < 2 ^ 32, ¬ SafeBelow (twoSectors (bootSector bps spc root) (fileSector cluster))
      (geometryInfo bps spc root) () := by
  have hunsafe : ¬ (Access.index (wmul 32 cluster 4 % bps) 4).Safe := Nat.not_le_of_lt hentry
  rcases Nat.eq_zero_or_pos spc with rfl | hpositive
  · refine ⟨cluster, lt_trans hcluster (by decide), fun h => hunsafe ?_⟩
    have hopen : fsOpen (twoSectors (bootSector bps 0 cluster) (fileSector cluster))
        (geometryInfo bps 0 cluster) [0x2F] emptyFile ()
        = (FS_SUCCESS, opened (geometryInfo bps 0 cluster) ⟨[0x2F], 0, FS_DIRECTORY, cluster⟩, ()) :=
      rfl
    have run : Run (fun s op t => OperationStep (twoSectors (bootSector bps 0 cluster)
        (fileSector cluster)) (geometryInfo bps 0 cluster) s op t ∧
          Below (geometryInfo bps 0 cluster) s op)
        ⟨[], ()⟩ [.fsOpen [0x2F]] _ := .single ⟨.opens hopen, trivial⟩
    refine h _ _ run (.fsReaddir 0) trivial 1 _ ?_
    refine readdir_reads_fat geometryInfo_mounted
      (by decide : ¬ FS_DIRECTORY &&& FS_DIRECTORY = 0) rfl ?_
    exact @index_mem_fatEntry (geometryInfo bps 0 cluster) cluster _ _
  · refine ⟨2, by decide, fun h => hunsafe ?_⟩
    have hmul : bps * spc < 2 ^ 16 * 2 ^ 8 := Nat.mul_lt_mul'' hlt hspc
    have hbytes : (geometryInfo bps spc 2).bytesPerCluster = bps * spc :=
      wmul_of_lt (lt_trans hmul (by decide))
    have hclusterSize := Nat.mul_pos hbps hpositive
    have hopen := fsOpen_fileSector hbps hpositive hcluster (bootSector bps spc 2) emptyFile
    generalize hfile : opened (geometryInfo bps spc 2) ⟨[0x41], 0x7FFFFFFF, FS_FILE, cluster⟩ = file
      at hopen
    have hseek : fsSeek (geometryInfo bps spc 2) file (bps * spc)
        = (FS_SUCCESS, { file with position := bps * spc }) := by
      have hsmall : ¬ bps * spc > file.dirent.size := by
        rw [← hfile]
        change ¬ bps * spc > 0x7FFFFFFF
        omega
      rw [fsSeek, if_neg geometryInfo_mounted]
      dsimp only
      rw [if_neg hsmall]
    have run : Run (fun s op t => OperationStep (twoSectors (bootSector bps spc 2)
        (fileSector cluster)) (geometryInfo bps spc 2) s op t ∧
          Below (geometryInfo bps spc 2) s op)
        ⟨[], ()⟩ [.fsOpen [0x2F, 0x41], .fsSeek 0 (bps * spc)]
        ⟨[{ file with position := bps * spc }], ()⟩ :=
      .cons ⟨.opens hopen, trivial⟩ (.single ⟨.seeks rfl hseek, trivial⟩)
    refine h _ _ run (.fsRead 0 1) ?_ 1 _ ?_
    · intro f hf
      rw [← Option.some.inj hf]
      change (bps * spc / _ + 1) * _ < 2 ^ 32
      rw [hbytes, Nat.div_self hclusterSize]
      omega
    · refine read_reads_fat geometryInfo_mounted ?_ hbytes.symm ?_ ?_ ?_
      · rw [← hfile]
        exact (by decide : FS_FILE &&& FS_DIRECTORY = 0)
      · rw [hbytes, ← hfile]
        dsimp only [opened]
        omega
      · rw [← hfile]
        exact (by decide : 0x7FFFFFFF < 2 ^ 32)
      · rw [← hfile]
        exact @index_mem_fatEntry (geometryInfo bps spc 2) cluster _ _

/-- **What `fs_mount` would have to check.** Every mounted volume with the geometry is safe for
every run of calls below 2³² if and only if the driver can handle its sector size. -/
theorem safe_geometry_iff (hbps : bps < 2 ^ 16) (hspc : spc < 2 ^ 8) :
    (∀ {σ : Type} {ata : Ata σ} {device : Nat} {old info : FsInfo} {d₀ d : σ},
      fsMount ata device old d₀ = (FS_SUCCESS, info, d) → info.bytesPerSector = bps →
      info.sectorsPerCluster = spc → SafeBelow ata info d) ↔ Handled bps := by
  constructor
  · intro h
    have hmounted : ∀ root < 2 ^ 32, ∀ data,
        SafeBelow (twoSectors (bootSector bps spc root) data) (geometryInfo bps spc root) () :=
      fun root hroot data => h (fsMount_bootSector hbps hspc hroot data) rfl rfl
    refine ⟨?_, ?_, ?_⟩
    · refine Nat.pos_of_ne_zero fun hnone => ?_
      have hopen : fsOpen (twoSectors (bootSector bps spc 2) (fileSector 0))
          (geometryInfo bps spc 2) [0x2F] emptyFile ()
          = (FS_SUCCESS, opened (geometryInfo bps spc 2) ⟨[0x2F], 0, FS_DIRECTORY, 2⟩, ()) := rfl
      have hsafe := hmounted 2 (by decide) (fileSector 0) _ _ (.single ⟨.opens hopen, trivial⟩)
        (.fsReaddir 0) trivial 1 (.divide bps) ?_
      · exact hsafe hnone
      · exact readdir_divides geometryInfo_mounted
          (by decide : ¬ FS_DIRECTORY &&& FS_DIRECTORY = 0)
    · by_contra hlarge
      obtain ⟨root, hroot, hunsafe⟩ := @unsafe_of_entry bps spc 128 (by omega) hbps hspc (by decide)
        (by
          have hoffset : wmul 32 128 4 = 512 := rfl
          rw [hoffset, Nat.mod_eq_of_lt (by omega)]
          decide)
      exact hunsafe (hmounted root hroot _)
    · rintro rfl
      obtain ⟨root, hroot, hunsafe⟩ := @unsafe_of_entry 511 spc 383 (by decide) hbps hspc (by decide)
        (by decide)
      exact hunsafe (hmounted root hroot _)
  · rintro handled σ ata device old info d₀ d hmount rfl - ops s run op below fuel
    exact run_safe hmount handled run below fuel

/-- Sectors of 512 bytes and clusters of eight. -/
theorem safe_geometry_iff_usual :
    fsMount (twoSectors (bootSector 512 8 2) (fileSector 3)) 0 unmounted ()
        = (FS_SUCCESS, geometryInfo 512 8 2, ()) ∧
      SafeBelow (twoSectors (bootSector 512 8 2) (fileSector 3)) (geometryInfo 512 8 2) () := by
  have hmount := @fsMount_bootSector 512 8 2 (by decide) (by decide) (by decide) (fileSector 3)
  have handled : Handled 512 := ⟨by decide, Nat.le_refl 512, by decide⟩
  exact ⟨hmount, (@safe_geometry_iff 512 8 (by decide) (by decide)).mpr handled hmount rfl rfl⟩

/-- `fs_mount` accepts a sector size of 0, and `fs_readdir` of the root directory divides by it. -/
theorem divides_by_zero :
    fsMount (twoSectors (bootSector 0 1 2) (fileSector 3)) 0 unmounted ()
        = (FS_SUCCESS, geometryInfo 0 1 2, ()) ∧
      ∃ s : Driver Unit, Run (OperationStep (twoSectors (bootSector 0 1 2) (fileSector 3))
          (geometryInfo 0 1 2)) ⟨[], ()⟩ [.fsOpen [0x2F]] s ∧
        .divide 0 ∈ accesses (twoSectors (bootSector 0 1 2) (fileSector 3)) (geometryInfo 0 1 2) 1 s
          (.fsReaddir 0) ∧
        ¬ (Access.divide 0).Safe := by
  have hopen : fsOpen (twoSectors (bootSector 0 1 2) (fileSector 3)) (geometryInfo 0 1 2) [0x2F]
      emptyFile () = (FS_SUCCESS, opened (geometryInfo 0 1 2) ⟨[0x2F], 0, FS_DIRECTORY, 2⟩, ()) :=
    rfl
  refine ⟨fsMount_bootSector (by decide) (by decide) (by decide) _, _, .single (.opens hopen), ?_,
    by decide⟩
  exact readdir_divides geometryInfo_mounted (by decide : ¬ FS_DIRECTORY &&& FS_DIRECTORY = 0)

end Curnel.Filesystem
