/-
Where fs_read and fs_write go when the FAT cannot be read, or holds numbers of no cluster.

fat32_read_fat_entry gives 0 for a sector that cannot be read, and its callers take every
number below the end-of-chain marks for a cluster. Beside the loops of both functions stand
their visits: the FAT entries they follow, the clusters they allocate, and the data sectors
they look for and transfer bytes of. `Keeps` goes along the visits with the set of the
clusters that the call has reached so far.
-/

import Curnel.Filesystem.Directory

namespace Curnel.Filesystem

open Lib Bytes Word

variable {σ : Type}

/-- What a call does with a cluster number. -/
inductive Visit where
  /-- To go on in the chain it reads the FAT entry of a cluster. `none` stands for a sector
  that cannot be read. -/
  | follow (cluster : Nat) (entry : Option Nat)
  | allocate (cluster : Nat)
  /-- It looks for a sector of a cluster. -/
  | access (cluster : Nat)
  /-- It copies bytes of the sector, or writes it. -/
  | transfer (cluster lba : Nat)
deriving DecidableEq

/-! ### The visits of each function -/

/-- The FAT entry of a cluster, as far as it can be read. -/
def fatEntry (ata : Ata σ) (info : FsInfo) (cluster : Nat) (d : σ) : Option Nat :=
  let fatOffset := wmul 32 cluster 4
  let fatSector := wadd 32 info.fatStart (fatOffset / info.bytesPerSector)
  (ata.readSector fatSector d).1.map fun sector =>
    readLE sector (fatOffset % info.bytesPerSector) 4 &&& 0x0FFFFFFF

/-- Bytes are transferred in sectors of clusters that the call has `reached`: the number is at
least 2, and the sector is not before the data. An entry that is read reaches a cluster if it
belongs to one that is reached. Where an entry cannot be read there is no further visit, and
the call does not return the `full` count. -/
def Keeps (info : FsInfo) (full : Prop) : (Nat → Prop) → List Visit → Prop
  | _, [] => True
  | reached, .follow cluster (some entry) :: visits =>
      Keeps info full (fun c => reached c ∨ reached cluster ∧ c = entry ∧ entry < FAT32_EOC) visits
  | _, .follow _ none :: visits => visits = [] ∧ ¬ full
  | reached, .allocate cluster :: visits => Keeps info full (fun c => reached c ∨ c = cluster) visits
  | reached, .access _ :: visits => Keeps info full reached visits
  | reached, .transfer cluster lba :: visits =>
      (2 ≤ cluster ∧ info.dataStart ≤ lba ∧ reached cluster) ∧ Keeps info full reached visits

/-- No entry that cannot be read is followed. -/
def Visit.Read : Visit → Prop
  | .follow _ none => False
  | _ => True

/-- The number of a cluster whose sectors have LBAs below 2³². -/
structure InRange (info : FsInfo) (cluster : Nat) : Prop where
  isCluster : 2 ≤ cluster ∧ cluster < FAT32_EOC
  data : info.dataStart + (cluster - 2 + 1) * info.sectorsPerCluster ≤ 2 ^ 32

/-- The entries that are followed can be read, and are numbers of clusters unless they end the
chain; and so are the numbers that are allocated. -/
def Visit.Sound (info : FsInfo) : Visit → Prop
  | .follow _ none => False
  | .follow _ (some entry) => entry < FAT32_EOC → InRange info entry
  | .allocate cluster => InRange info cluster
  | _ => True

/-! ### Visits along a chain -/

/-- The visits of a loop that is at a cluster, or that cannot go on without a new one. -/
inductive Path (info : FsInfo) (full : Prop) : Option Nat → List Visit → Prop where
  | nil {place : Option Nat} : Path info full place []
  | follow {cluster entry : Nat} {visits : List Visit} :
      Path info full (if entry < FAT32_EOC then some entry else none) visits →
        Path info full (some cluster) (.follow cluster (some entry) :: visits)
  /-- A loop that cannot read the entry goes on with the number 0. -/
  | lost {cluster : Nat} {visits : List Visit} :
      Path info full (some 0) visits → (visits = [] → full) →
        Path info full (some cluster) (.follow cluster none :: visits)
  | allocate {place : Option Nat} {cluster : Nat} {visits : List Visit} :
      Path info full (some cluster) visits → Path info full place (.allocate cluster :: visits)
  | access {cluster : Nat} {visits : List Visit} :
      Path info full (some cluster) visits →
        Path info full (some cluster) (.access cluster :: visits)
  | transfer {cluster lba : Nat} {visits : List Visit} :
      (InRange info cluster → info.dataStart ≤ lba) → Path info full (some cluster) visits →
        Path info full (some cluster) (.transfer cluster lba :: visits)

section Path

variable {info : FsInfo} {full : Prop} {place : Option Nat} {visits : List Visit}

/-- Where a FAT entry is read, the path goes on at it, or at the number 0 if it is lost. -/
theorem Path.entry {ata : Ata σ} {cluster : Nat} {d : σ}
    (hgo : (fat32ReadFatEntry ata info cluster d).1 < FAT32_EOC →
      Path info full (some (fat32ReadFatEntry ata info cluster d).1) visits ∧
        (visits = [] → full))
    (hend : FAT32_EOC ≤ (fat32ReadFatEntry ata info cluster d).1 → Path info full none visits) :
    Path info full (some cluster) (.follow cluster (fatEntry ata info cluster d) :: visits) := by
  unfold fat32ReadFatEntry at hgo hend
  unfold fatEntry
  dsimp only at hgo hend ⊢
  split at hgo
  next d' hread =>
    rw [hread]
    obtain ⟨path, hfull⟩ := hgo (show 0 < FAT32_EOC by decide)
    exact Path.lost path hfull
  next sector d' hread =>
    rw [hread] at hend ⊢
    refine Path.follow ?_
    split
    next hless => exact (hgo hless).1
    next hmore => exact hend (Nat.le_of_not_lt hmore)

end Path

/-! ### The loops -/

section Loops

variable {ata : Ata σ} {info : FsInfo} {full : Prop}

/-- The visits `rest` are what follows the end of a seek loop. -/
def Continues (info : FsInfo) (full : Prop) (rest : List Visit) : Option (Option Nat × σ) → Prop
  | none => rest = [] ∧ full
  | some (none, _) => rest = []
  | some (some cluster, _) => Path info full (some cluster) rest ∧ (rest = [] → full)

end Loops

/-! ### The calls -/

/-- How many bytes `fs_read` is to copy. -/
def bytesToRead (file : File) (size : Nat) : Nat :=
  if wadd 64 file.position size > file.dirent.size then file.dirent.size - file.position else size

variable {ata : Ata σ} {info : FsInfo}

end Curnel.Filesystem
