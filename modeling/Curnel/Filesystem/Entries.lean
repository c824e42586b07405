/-
One FAT entry, read and written.

`fat_entry_written` is about any FAT with sectors of 512 bytes, wherever it begins and
however many entries it has: where the number of a sector is wrapped around, the entries of
different clusters still share no byte.
-/

import Curnel.Filesystem.Fat

namespace Curnel.Filesystem

open Lib Bytes Word

variable {σ : Type}

/-- The upper four bits of the FAT entry of a cluster, which are reserved. -/
def reserved (info : FsInfo) (m : Store) (c : Nat) : Nat := readLE m (entryAddr info c) 4 >>> 28

variable {ata : Ata σ} {disk : σ → Store} {info : FsInfo} {c : Nat}

/-- A read does not depend on the bytes outside of the entry. -/
theorem fat32ReadFatEntry_congr (reliable : Reliable ata disk) (hsize : info.bytesPerSector = 512)
    (hc : c < 2 ^ 28) {s t : σ}
    (h : readLE (disk t) (entryAddr info c) 4 = readLE (disk s) (entryAddr info c) 4) :
    (fat32ReadFatEntry ata info c t).1 = (fat32ReadFatEntry ata info c s).1 := by
  have hlt : c < 2 ^ 30 := by omega
  obtain ⟨s', hs, _⟩ := fat32ReadFatEntry_at reliable hsize hlt s
  obtain ⟨t', ht, _⟩ := fat32ReadFatEntry_at reliable hsize hlt t
  rw [hs, ht, h]

/-- A FAT entry that is written is read back, and nothing else changes: not the entry of
another cluster, not the reserved bits, and no other byte of the disk. -/
theorem fat_entry_written (reliable : Reliable ata disk) (hsize : info.bytesPerSector = 512)
    (hc : c < 2 ^ 28) (v : Nat) (s : σ) :
    ∃ t, fat32WriteFatEntry ata info c v s = (FS_SUCCESS, t) ∧
      (fat32ReadFatEntry ata info c t).1 = v % 2 ^ 28 ∧
      (∀ d < 2 ^ 28, d ≠ c →
        (fat32ReadFatEntry ata info d t).1 = (fat32ReadFatEntry ata info d s).1) ∧
      reserved info (disk t) c = reserved info (disk s) c ∧
      Frame (disk s) (disk t) (entryAddr info c) (entryAddr info c + 4) := by
  have hlt : c < 2 ^ 30 := by omega
  obtain ⟨t, hwrite, hdisk⟩ := fat32WriteFatEntry_at reliable hsize hlt v s
  have hframe : Frame (disk s) (disk t) (entryAddr info c) (entryAddr info c + 4) := by
    rw [hdisk]
    exact writeLE_frame ..
  refine ⟨t, hwrite, ?_, ?_, ?_, hframe⟩
  · obtain ⟨u, hread, _⟩ := fat32ReadFatEntry_at reliable hsize hlt t
    rw [hread, hdisk, readLE_writeLE_same, setFat_value, and_mask]
  · intro d hd hne
    exact fat32ReadFatEntry_congr reliable hsize hd
      (hframe.readLE_eq (entryAddr_disjoint hc hd hne.symm))
  · rw [reserved, reserved, hdisk, readLE_writeLE_same]
    exact setFat_reserved (readLE_lt (disk s) (entryAddr info c) 4) v

/-- The FAT begins in the last sector of 32 bits, and the entry is in sector 0. -/
theorem fat_entry_written_wrapped :
    ∃ t : Store,
      fat32WriteFatEntry memoryDisk ⟨0, 2 ^ 32 - 1, 8, 2, 1, 512, 512, true⟩ 128 (2 ^ 28 + 5)
        (fun _ => 0xFF) = (FS_SUCCESS, t) ∧
      (fat32ReadFatEntry memoryDisk ⟨0, 2 ^ 32 - 1, 8, 2, 1, 512, 512, true⟩ 128 t).1 = 5 ∧
      Frame (fun _ => 0xFF) t 0 4 := by
  obtain ⟨t, hwrite, hread, _, _, hframe⟩ :=
    @fat_entry_written Store memoryDisk id ⟨0, 2 ^ 32 - 1, 8, 2, 1, 512, 512, true⟩ 128
      memoryDisk_reliable rfl (by decide) (2 ^ 28 + 5) (fun _ => 0xFF)
  exact ⟨t, hwrite, hread, hframe⟩

end Curnel.Filesystem
