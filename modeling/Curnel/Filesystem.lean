/-
filesystem.c: mounting, the FAT and the writing of files.

The disk driver is not part of the repository. `Ata` stands for it: two functions
on a state of its own, one sector at a time, each of which may fail. A sector is
a store of which the first 512 bytes count.

Loops take fuel where the code does not bound them; `none` stands for a call that
has run out of it.
-/

import Curnel.Lib.Bytes
import Curnel.Lib.Word

namespace Curnel.Filesystem

open Lib Bytes Word

def FS_FILE : Nat := 0x01
def FS_DIRECTORY : Nat := 0x02

def FAT32_SIGNATURE : Nat := 0x28
def FAT32_EOC : Nat := 0x0FFFFFF8

def FS_SUCCESS : Int := 0
def FS_ERROR : Int := -1
def FS_NOT_FOUND : Int := -2
def FS_NOT_MOUNTED : Int := -3

/-- `ata_read_sectors` and `ata_write_sectors` for one sector, by its LBA. `none`
and `false` stand for a result other than 0. -/
structure Ata (σ : Type) where
  readSector : Nat → σ → Option Store × σ
  writeSector : Nat → Store → σ → Bool × σ

/-- The fields of `fs_info_t` that are read after mounting. -/
structure FsInfo where
  device : Nat
  fatStart : Nat
  dataStart : Nat
  rootCluster : Nat
  sectorsPerCluster : Nat
  bytesPerSector : Nat
  bytesPerCluster : Nat
  mounted : Bool

structure Dirent where
  name : List UInt8
  size : Nat
  flags : Nat
  cluster : Nat
deriving DecidableEq

structure File where
  dirent : Dirent
  position : Nat
  currentCluster : Nat
  device : Nat
deriving DecidableEq

variable {σ : Type}

/-! ### Mounting -/

/-- The fields of `fat32_bpb_t` that `fs_mount` reads. -/
structure Bpb where
  bytesPerSector : Nat
  sectorsPerCluster : Nat
  reservedSectors : Nat
  numFats : Nat
  fatSize32 : Nat
  rootCluster : Nat
  bootSignature : Nat

/-- The BPB in a boot sector that begins at `a`. -/
def Bpb.read (m : Store) (a : Nat) : Bpb where
  bytesPerSector := readLE m (a + 11) 2
  sectorsPerCluster := readLE m (a + 13) 1
  reservedSectors := readLE m (a + 14) 2
  numFats := readLE m (a + 16) 1
  fatSize32 := readLE m (a + 36) 4
  rootCluster := readLE m (a + 44) 4
  bootSignature := readLE m (a + 66) 1

/-- What `fs_mount` sets once it has found the BPB. -/
def mountInfo (info : FsInfo) (partitionStart : Nat) (bpb : Bpb) : FsInfo :=
  let fatStart := wadd 32 partitionStart bpb.reservedSectors
  { info with
    bytesPerSector := bpb.bytesPerSector
    sectorsPerCluster := bpb.sectorsPerCluster
    bytesPerCluster := wmul 32 bpb.bytesPerSector bpb.sectorsPerCluster
    rootCluster := bpb.rootCluster
    fatStart := fatStart
    dataStart := wadd 32 fatStart (wmul 32 bpb.numFats bpb.fatSize32)
    mounted := true }

def fsMount (ata : Ata σ) (device : Nat) (info : FsInfo) (d : σ) : Int × FsInfo × σ :=
  let info := { info with device := device }
  match ata.readSector 0 d with
  | (none, d) => (FS_ERROR, info, d)
  | (some mbr, d) =>
      let partitionStart := readLE mbr (0x1BE + 0x08) 4
      match ata.readSector partitionStart d with
      | (none, d) => (FS_ERROR, info, d)
      | (some bootSector, d) =>
          let bpb := Bpb.read bootSector 0
          if bpb.bootSignature ≠ FAT32_SIGNATURE then (FS_ERROR, info, d)
          else (FS_SUCCESS, mountInfo info partitionStart bpb, d)

/-! ### The FAT -/

/-- The entry of a cluster, or 0 if its sector cannot be read. -/
def fat32ReadFatEntry (ata : Ata σ) (info : FsInfo) (cluster : Nat) (d : σ) : Nat × σ :=
  let fatOffset := wmul 32 cluster 4
  let fatSector := wadd 32 info.fatStart (fatOffset / info.bytesPerSector)
  let entryOffset := fatOffset % info.bytesPerSector
  match ata.readSector fatSector d with
  | (none, d) => (0, d)
  | (some sector, d) => (readLE sector entryOffset 4 &&& 0x0FFFFFFF, d)

def fat32WriteFatEntry (ata : Ata σ) (info : FsInfo) (cluster value : Nat) (d : σ) : Int × σ :=
  let fatOffset := wmul 32 cluster 4
  let fatSector := wadd 32 info.fatStart (fatOffset / info.bytesPerSector)
  let entryOffset := fatOffset % info.bytesPerSector
  match ata.readSector fatSector d with
  | (none, d) => (FS_ERROR, d)
  | (some sector, d) =>
      let entry := readLE sector entryOffset 4
      let sector := writeLE sector entryOffset 4 (entry &&& 0xF0000000 ||| value &&& 0x0FFFFFFF)
      match ata.writeSector fatSector sector d with
      | (false, d) => (FS_ERROR, d)
      | (true, d) => (FS_SUCCESS, d)

def fat32ClusterToLba (info : FsInfo) (cluster : Nat) : Nat :=
  wadd 32 info.dataStart (wmul 32 (wsub 32 cluster 2) info.sectorsPerCluster)

/-- The search of one sector of the FAT, from offset `i` on with `n` entries to go,
for a free cluster that may be allocated. -/
def freeInSector (info : FsInfo) (sector : Store) (fatSector : Nat) : Nat → Nat → Option Nat
  | 0, _ => none
  | n + 1, i =>
      let cluster := wadd 32 (wmul 32 fatSector info.bytesPerSector) i / 4
      if readLE sector i 4 &&& 0x0FFFFFFF = 0 ∧ cluster ≥ 2 then some cluster
      else freeInSector info sector fatSector n (i + 4)

/-- The search of the FAT from sector `fatSector` on, with `n` sectors to go. -/
def allocateFrom (ata : Ata σ) (info : FsInfo) : Nat → Nat → σ → Nat × σ
  | 0, _, d => (0, d)
  | n + 1, fatSector, d =>
      match ata.readSector (wadd 32 info.fatStart fatSector) d with
      | (none, d) => (0, d)
      | (some sector, d) =>
          match freeInSector info sector fatSector ((info.bytesPerSector + 3) / 4) 0 with
          | some cluster => (cluster, (fat32WriteFatEntry ata info cluster FAT32_EOC d).2)
          | none => allocateFrom ata info n (fatSector + 1) d

/-- A free cluster, marked as the end of a chain, or 0. -/
def fat32AllocateCluster (ata : Ata σ) (info : FsInfo) (d : σ) : Nat × σ :=
  if info.mounted = false then (0, d)
  else allocateFrom ata info (wsub 32 info.dataStart info.fatStart) 0 d

/-! ### Writing -/

/-- The loop of `fs_write` that goes to the cluster of `position`, making the chain
longer where it ends. The result is that cluster, or `none` if the disk is full. -/
def seekToWrite (ata : Ata σ) (info : FsInfo) (position : Nat) :
    Nat → Nat → Nat → σ → Option (Option Nat × σ)
  | 0, _, _, _ => none
  | fuel + 1, pos, cluster, d =>
      if wadd 32 pos info.bytesPerCluster ≤ position then
        let (next, d) := fat32ReadFatEntry ata info cluster d
        if next ≥ FAT32_EOC then
          let (new, d) := fat32AllocateCluster ata info d
          if new = 0 then some (none, d)
          else
            let d := (fat32WriteFatEntry ata info cluster new d).2
            seekToWrite ata info position fuel (wadd 32 pos info.bytesPerCluster) new d
        else seekToWrite ata info position fuel (wadd 32 pos info.bytesPerCluster) next d
      else some (some cluster, d)

/-- How the writing loop of `fs_write` ends. -/
structure Written where
  /-- A sector could not be read or written. -/
  failed : Bool
  position : Nat
  bytesLeft : Nat
deriving DecidableEq

/-- The writing loop of `fs_write`, for the bytes that are left. -/
def writeLoop (ata : Ata σ) (info : FsInfo) :
    Nat → Nat → Nat → Nat → List UInt8 → σ → Option (Written × σ)
  | 0, _, _, _, _, _ => none
  | fuel + 1, cluster, clusterPos, position, src, d =>
      if src.length > 0 then
        let sectorLba := wadd 32 (fat32ClusterToLba info cluster) (clusterPos / info.bytesPerSector)
        let offset := clusterPos % info.bytesPerSector
        match ata.readSector sectorLba d with
        | (none, d) => some (⟨true, position, src.length⟩, d)
        | (some sector, d) =>
            let room := wsub 32 info.bytesPerSector offset
            let sectorBytes := if room > src.length then src.length else room
            let sector := writeBytes sector offset (src.take sectorBytes)
            match ata.writeSector sectorLba sector d with
            | (false, d) => some (⟨true, position, src.length⟩, d)
            | (true, d) =>
                let src := src.drop sectorBytes
                let clusterPos := wadd 32 clusterPos sectorBytes
                let position := wadd 32 position sectorBytes
                if clusterPos ≥ info.bytesPerCluster then
                  let (next, d) := fat32ReadFatEntry ata info cluster d
                  if next ≥ FAT32_EOC ∧ src.length > 0 then
                    let (new, d) := fat32AllocateCluster ata info d
                    if new = 0 then some (⟨false, position, src.length⟩, d)
                    else
                      let d := (fat32WriteFatEntry ata info cluster new d).2
                      writeLoop ata info fuel new 0 position src d
                  else writeLoop ata info fuel next 0 position src d
                else writeLoop ata info fuel cluster clusterPos position src d
      else some (⟨false, position, 0⟩, d)

/-- `fs_write` from the search for the right cluster on. -/
def writeFrom (ata : Ata σ) (info : FsInfo) (fuel : Nat) (file : File) (buffer : List UInt8)
    (d : σ) : Option (Int × File × σ) :=
  match seekToWrite ata info file.position fuel 0 file.dirent.cluster d with
  | none => none
  | some (none, d) => some (FS_ERROR, file, d)
  | some (some cluster, d) =>
      match writeLoop ata info fuel cluster (file.position % info.bytesPerCluster) file.position
        buffer d with
      | none => none
      | some (⟨true, position, _⟩, d) => some (FS_ERROR, { file with position := position }, d)
      | some (⟨false, position, bytesLeft⟩, d) =>
          let file := { file with position := position }
          let file :=
            if file.position > file.dirent.size then
              { file with dirent := { file.dirent with size := file.position } }
            else file
          some (toInt32 (buffer.length - bytesLeft), file, d)

def fsWrite (ata : Ata σ) (info : FsInfo) (fuel : Nat) (file : File) (buffer : List UInt8)
    (d : σ) : Option (Int × File × σ) :=
  if info.mounted = false then some (FS_NOT_MOUNTED, file, d)
  else if file.dirent.flags &&& FS_DIRECTORY ≠ 0 then some (FS_ERROR, file, d)
  else if file.dirent.cluster = 0 then
    let (cluster, d) := fat32AllocateCluster ata info d
    if cluster = 0 then some (FS_ERROR, file, d)
    else
      writeFrom ata info fuel
        { file with dirent := { file.dirent with cluster := cluster }, currentCluster := cluster }
        buffer d
  else writeFrom ata info fuel file buffer d

end Curnel.Filesystem
