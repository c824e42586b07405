/-
Allocation on a volume with any number of FATs.

The FATs of a volume follow each other, and `fat32_allocate_cluster` searches all the
sectors up to the data: once the first FAT has no free entry it goes on in the next,
and takes the place of an entry there for a cluster number. `allocate_lawful_iff` says
when the allocation is right all the same.
-/

import Curnel.Filesystem.Fat

namespace Curnel.Filesystem

open Lib Bytes Word

variable {σ : Type} {ata : Ata σ} {disk : σ → Store} {info : FsInfo}

/-! ### Mounted volumes -/

/-- Where the partition of a disk begins. -/
def partitionStart (m : Store) : Nat := readLE m (0x1BE + 0x08) 4

/-- The BPB of the partition of a disk. -/
def diskBpb (m : Store) : Bpb := Bpb.read m (512 * partitionStart m)

/-- A partition with sectors of 512 bytes whose FATs have block addresses of 32 bits. -/
structure Fits (m : Store) : Prop where
  bytesPerSector : (diskBpb m).bytesPerSector = 512
  fats : partitionStart m + (diskBpb m).reservedSectors
    + (diskBpb m).numFats * (diskBpb m).fatSize32 < 2 ^ 32

/-- The number of entries of the first FAT; there is none if there is no FAT. -/
def copyEntries (bpb : Bpb) : Nat := if bpb.numFats = 0 then 0 else bpb.fatSize32 * 128

/-- A sector's BPB is that of the disk. -/
theorem IsSector.bpb {m sector : Store} {lba : Nat} (h : IsSector m lba sector) :
    Bpb.read sector 0 = Bpb.read m (512 * lba) := by
  simp only [Bpb.read, Nat.zero_add]
  rw [h.readLE_eq (by decide), h.readLE_eq (by decide), h.readLE_eq (by decide),
    h.readLE_eq (by decide), h.readLE_eq (by decide), h.readLE_eq (by decide),
    h.readLE_eq (by decide)]

/-- What a volume looks like that has been mounted. -/
theorem layout_of_fsMount (reliable : Reliable ata disk) {device : Nat} {old : FsInfo} {d d' : σ}
    (h : fsMount ata device old d = (FS_SUCCESS, info, d')) (fits : Fits (disk d)) :
    Layout info ∧
      entries info = (diskBpb (disk d)).numFats * (diskBpb (disk d)).fatSize32 * 128 := by
  have hlt : partitionStart (disk d) < 2 ^ 32 := readLE_lt _ _ 4
  obtain ⟨mbr, d₁, hread, hmbr, hdisk₁⟩ := reliable.read 0 d (by decide)
  obtain ⟨boot, d₂, hread₂, hboot, -⟩ := reliable.read (partitionStart (disk d)) d₁ hlt
  have hstart : readLE mbr (0x1BE + 0x08) 4 = partitionStart (disk d) := by
    have hsector : IsSector (disk d) 0 mbr := hmbr
    rw [hsector.readLE_eq (by decide), partitionStart]
  rw [hdisk₁] at hboot
  have hbpb : Bpb.read boot 0 = diskBpb (disk d) := IsSector.bpb hboot
  simp only [fsMount, hread, hstart, hread₂, hbpb] at h
  split at h
  · cases h
  · simp only [Prod.mk.injEq, true_and] at h
    obtain ⟨rfl, -⟩ := h
    have hfits := fits.fats
    have hfatStart : wadd 32 (partitionStart (disk d)) (diskBpb (disk d)).reservedSectors
        = partitionStart (disk d) + (diskBpb (disk d)).reservedSectors := wadd_of_lt (by omega)
    have hproduct : wmul 32 (diskBpb (disk d)).numFats (diskBpb (disk d)).fatSize32
        = (diskBpb (disk d)).numFats * (diskBpb (disk d)).fatSize32 := wmul_of_lt (by omega)
    have hdataStart := wadd_of_lt hfits
    refine ⟨⟨rfl, fits.bytesPerSector, ?_, ?_⟩, ?_⟩
    · simp only [mountInfo, hfatStart, hproduct, hdataStart]
      exact Nat.le_add_right _ _
    · simp only [mountInfo, hfatStart, hproduct, hdataStart]
      exact hfits
    · simp only [entries, mountInfo, hfatStart, hproduct, hdataStart, Nat.add_sub_cancel_left]

/-! ### The law of allocation -/

/-- The first FAT of `n` entries has a free one that stands for a cluster. -/
def HasFree (info : FsInfo) (m : Store) (n : Nat) : Prop := ∃ e, 2 ≤ e ∧ e < n ∧ fat info m e = 0

/-- An allocation marks a free entry of the first FAT and changes nothing else there;
or there is none, and it returns 0 and changes nothing. -/
def Lawful (info : FsInfo) (n : Nat) (m : Store) (c : Nat) (m' : Store) : Prop :=
  (2 ≤ c ∧ c < n ∧ fat info m c = 0 ∧ fat info m' c = FAT32_EOC ∧
    ∀ a, fatAddr info 0 ≤ a → a < fatAddr info n →
      ¬ (fatAddr info c ≤ a ∧ a < fatAddr info c + 4) → m' a = m a) ∨
  (c = 0 ∧ m' = m ∧ ¬ HasFree info m n)

/-- The first FAT has a free entry whose number has 30 bits, or none, and none of the
entries in all the FATs would be taken. -/
def Covered (info : FsInfo) (n : Nat) (m : Store) : Prop :=
  HasFree info m (min n (2 ^ 30)) ∨
    ¬ HasFree info m n ∧ ∀ e < entries info, ¬ Takes info m e

theorem copyEntries_le {bpb : Bpb} : copyEntries bpb ≤ bpb.numFats * bpb.fatSize32 * 128 := by
  unfold copyEntries
  split
  next => exact Nat.zero_le _
  next hsome =>
    have hone : 1 * bpb.fatSize32 ≤ bpb.numFats * bpb.fatSize32 :=
      Nat.mul_le_mul_right _ (Nat.pos_of_ne_zero hsome)
    omega

/-- An entry of the first FAT that is free and has a number of 30 bits would be taken. -/
theorem takes_of_free {m : Store} {e : Nat} (hge : 2 ≤ e) (hlt : e < 2 ^ 30)
    (hfree : fat info m e = 0) : Takes info m e := by
  refine ⟨hfree, ?_⟩
  rwa [Nat.mod_eq_of_lt hlt]

/-- The entry that the search takes is in the first FAT exactly if that has one to take. -/
theorem First.lawful_iff {n e : Nat} {m : Store} (first : First info m 0 e)
    (he : e < entries info) :
    Lawful info n m (e % 2 ^ 30) (setFat info m (e % 2 ^ 30) FAT32_EOC) ↔ Covered info n m := by
  obtain ⟨hfree, hnumber⟩ := first.takes
  have hmod := Nat.mod_lt e (Nat.two_pow_pos 30)
  have hle := Nat.mod_le e (2 ^ 30)
  by_cases hin : e < n ∧ e < 2 ^ 30
  · -- the entry found is one of the first FAT
    have hsame : e % 2 ^ 30 = e := Nat.mod_eq_of_lt hin.2
    rw [hsame] at hnumber ⊢
    refine iff_of_true (.inl ⟨hnumber, hin.1, hfree, ?_, fun a _ _ hout => setFat_frame info m e _ hout⟩)
      (.inl ⟨e, hnumber, by omega, hfree⟩)
    rw [fat_setFat_same]
    rfl
  · refine iff_of_false ?_ ?_
    · rintro (⟨-, hlt, hfree', -, -⟩ | ⟨hzero, -, -⟩)
      · -- its number is that of an earlier entry, which is not free
        have hearlier : e % 2 ^ 30 < e := by omega
        exact first.least _ (Nat.zero_le _) hearlier (takes_of_free hnumber hmod hfree')
      · omega
    · rintro (⟨e', hge, hlt, hfree'⟩ | ⟨-, hnone⟩)
      · have htakes := @takes_of_free info m e' hge (by omega) hfree'
        have hlater : ¬ e' < e := fun h => first.least e' (Nat.zero_le _) h htakes
        omega
      · exact hnone e he first.takes

/-- On a mounted volume without disk errors: an allocation is lawful if and only if the
first FAT has a free entry, or none and the others do not offer one either. -/
theorem allocate_lawful_iff (reliable : Reliable ata disk) {device : Nat} {old : FsInfo}
    {start mounted : σ} (hmount : fsMount ata device old start = (FS_SUCCESS, info, mounted))
    (fits : Fits (disk start)) (d : σ) :
    Lawful info (copyEntries (diskBpb (disk start))) (disk d)
        (fat32AllocateCluster ata info d).1 (disk (fat32AllocateCluster ata info d).2) ↔
      Covered info (copyEntries (diskBpb (disk start))) (disk d) := by
  obtain ⟨layout, hentries⟩ := layout_of_fsMount reliable hmount fits
  have hn : copyEntries (diskBpb (disk start)) ≤ entries info := by
    rw [hentries]
    exact copyEntries_le
  rcases layout.allocate_cases reliable d with
    ⟨e, d', he, first, hcall, hdisk⟩ | ⟨⟨d', hcall, hdisk⟩, hnone⟩
  · rw [hcall]
    dsimp only
    rw [hdisk]
    exact first.lawful_iff he
  · rw [hcall]
    dsimp only
    rw [hdisk]
    constructor
    · rintro (⟨hge, -⟩ | ⟨-, -, hfull⟩)
      · omega
      · exact .inr ⟨hfull, hnone⟩
    · rintro (⟨e, hge, hlt, hfree⟩ | ⟨hfull, -⟩)
      · exact absurd (takes_of_free hge (by omega) hfree) (hnone e (by omega))
      · exact .inr ⟨rfl, rfl, hfull⟩

/-! ### Two FATs of one sector -/

/-- A disk with a partition from sector 1 on, and in sectors 2 and 3 two FATs: the first
has the byte `b` throughout, and the second is empty. -/
def twoFats (b : UInt8) : Store := fun a =>
  if a = 454 ∨ a = 525 ∨ a = 526 ∨ a = 548 then 1
  else if a = 524 ∨ a = 528 ∨ a = 556 then 2
  else if a = 578 then 0x28
  else if 1024 ≤ a ∧ a < 1536 then b
  else 0

def unmounted : FsInfo := ⟨0, 0, 0, 0, 0, 0, 0, false⟩

/-- What mounting that disk gives. -/
def twoFatsInfo (b : UInt8) : FsInfo := (fsMount memoryDisk 0 unmounted (twoFats b)).2.1

theorem fsMount_twoFats (b : UInt8)
    (h : (fsMount memoryDisk 0 unmounted (twoFats b)).1 = FS_SUCCESS) :
    fsMount memoryDisk 0 unmounted (twoFats b)
      = (FS_SUCCESS, twoFatsInfo b, (fsMount memoryDisk 0 unmounted (twoFats b)).2.2) := by
  unfold twoFatsInfo
  rw [← h]

/-- With the first FAT empty, too, cluster 2 is free. -/
theorem allocate_lawful_iff_empty :
    Lawful (twoFatsInfo 0) (copyEntries (diskBpb (twoFats 0))) (twoFats 0)
      (fat32AllocateCluster memoryDisk (twoFatsInfo 0) (twoFats 0)).1
      (fat32AllocateCluster memoryDisk (twoFatsInfo 0) (twoFats 0)).2 := by
  have fits : Fits (id (twoFats 0)) := ⟨by decide +kernel, by decide +kernel⟩
  have hiff := allocate_lawful_iff memoryDisk_reliable (fsMount_twoFats 0 (by decide +kernel)) fits
    (twoFats 0)
  refine hiff.mpr (.inl ⟨2, Nat.le_refl 2, ?_, ?_⟩)
  · decide +kernel
  · decide +kernel

/-- With the first FAT full, an entry of the second is taken for cluster 128. -/
theorem allocates_beyond_fat :
    (fsMount memoryDisk 0 unmounted (twoFats 0xFF)).1 = FS_SUCCESS ∧
      (fat32AllocateCluster memoryDisk (twoFatsInfo 0xFF) (twoFats 0xFF)).1 = 128 ∧
      copyEntries (diskBpb (twoFats 0xFF)) = 128 ∧
      ¬ Lawful (twoFatsInfo 0xFF) (copyEntries (diskBpb (twoFats 0xFF))) (twoFats 0xFF)
        (fat32AllocateCluster memoryDisk (twoFatsInfo 0xFF) (twoFats 0xFF)).1
        (fat32AllocateCluster memoryDisk (twoFatsInfo 0xFF) (twoFats 0xFF)).2 := by
  have hcluster : (fat32AllocateCluster memoryDisk (twoFatsInfo 0xFF) (twoFats 0xFF)).1 = 128 := by
    decide +kernel
  have hentries : copyEntries (diskBpb (twoFats 0xFF)) = 128 := by decide +kernel
  refine ⟨by decide +kernel, hcluster, hentries, ?_⟩
  rw [hcluster, hentries]
  rintro (⟨-, hlt, -⟩ | ⟨hzero, -⟩)
  · exact absurd hlt (Nat.lt_irrefl 128)
  · cases hzero

end Curnel.Filesystem
