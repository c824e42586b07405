/-
The FAT of a volume, on a disk that works.

`Reliable` is what the driver promises while no access fails: the disk is one
store, a read gives the bytes of its sector and a write changes these and nothing
else. On such a disk reading, writing and allocating a FAT entry are operations on
the store: `fat` reads the entry of a cluster, `setFat` writes it, and an
allocation takes a cluster from `freeSet`.
-/

import Mathlib.Data.Finset.Basic
import Mathlib.Order.Interval.Finset.Nat
import Curnel.Filesystem

namespace Curnel.Filesystem

open Lib Bytes Word

variable {σ : Type}

/-! ### Disk and volume -/

/-- No access fails, and sectors keep what is written to them. -/
structure Reliable (ata : Ata σ) (disk : σ → Store) : Prop where
  read : ∀ lba d, lba < 2 ^ 32 → ∃ sector d', ata.readSector lba d = (some sector, d') ∧
    (∀ o < 512, sector o = disk d (512 * lba + o)) ∧ disk d' = disk d
  write : ∀ lba sector d, lba < 2 ^ 32 → ∃ d', ata.writeSector lba sector d = (true, d') ∧
    disk d' = fun a =>
      if 512 * lba ≤ a ∧ a < 512 * lba + 512 then sector (a - 512 * lba) else disk d a

/-- A disk that is a store, and never fails. -/
def memoryDisk : Ata Store where
  readSector lba m := (some fun o => m (512 * lba + o), m)
  writeSector lba sector m :=
    (true, fun a => if 512 * lba ≤ a ∧ a < 512 * lba + 512 then sector (a - 512 * lba) else m a)

theorem memoryDisk_reliable : Reliable memoryDisk id where
  read _ m _ := ⟨_, m, rfl, fun _ _ => rfl, rfl⟩
  write _ _ _ _ := ⟨_, rfl, rfl⟩

/-- The number of entries of the FAT, that is of the clusters and the two numbers
that are none. -/
def entries (info : FsInfo) : Nat := (info.dataStart - info.fatStart) * 128

/-- A mounted FAT32 volume with sectors of 512 bytes, and one FAT that describes
exactly its clusters; cluster numbers stay below the reserved ones. -/
structure Volume (info : FsInfo) : Prop where
  mounted : info.mounted = true
  bytesPerSector : info.bytesPerSector = 512
  sectorsPerCluster : 0 < info.sectorsPerCluster
  bytesPerCluster : info.bytesPerCluster = 512 * info.sectorsPerCluster
  fatStart : info.fatStart ≤ info.dataStart
  dataStart : info.dataStart < 2 ^ 32
  entries_le : entries info ≤ 0x0FFFFFF7
  lba_le : info.dataStart + (entries info - 2) * info.sectorsPerCluster ≤ 2 ^ 32

/-- What is left of that where there are several FATs, one after the other: `entries`
then counts the entries of all of them. -/
structure Layout (info : FsInfo) : Prop where
  mounted : info.mounted = true
  bytesPerSector : info.bytesPerSector = 512
  fatStart : info.fatStart ≤ info.dataStart
  dataStart : info.dataStart < 2 ^ 32

theorem Volume.layout {info : FsInfo} (volume : Volume info) : Layout info :=
  ⟨volume.mounted, volume.bytesPerSector, volume.fatStart, volume.dataStart⟩

theorem Volume.not_unmounted {info : FsInfo} (volume : Volume info) : ¬ info.mounted = false := by
  rw [volume.mounted]
  decide

theorem Volume.lt_of_entries {info : FsInfo} (volume : Volume info) {c : Nat}
    (hc : c < entries info) : c < 2 ^ 30 := by
  have := volume.entries_le
  omega

/-- A cluster of the volume. -/
def Valid (info : FsInfo) (c : Nat) : Prop := 2 ≤ c ∧ c < entries info

/-- Where the FAT entry of a cluster is. -/
def fatAddr (info : FsInfo) (c : Nat) : Nat := 512 * info.fatStart + 4 * c

/-- Where `fat32_read_fat_entry` and `fat32_write_fat_entry` go for it: the number of the
sector has 32 bits. -/
def entryAddr (info : FsInfo) (c : Nat) : Nat :=
  512 * wadd 32 info.fatStart (c * 4 / 512) + c * 4 % 512

/-- Where the data of a cluster begin. -/
def dataAddr (info : FsInfo) (c : Nat) : Nat :=
  512 * (info.dataStart + (c - 2) * info.sectorsPerCluster)

/-- The FAT entry of a cluster. -/
def fat (info : FsInfo) (m : Store) (c : Nat) : Nat :=
  readLE m (fatAddr info c) 4 &&& 0x0FFFFFFF

/-- Set the FAT entry of a cluster, but for its upper four bits. -/
def setFat (info : FsInfo) (m : Store) (c v : Nat) : Store :=
  writeLE m (fatAddr info c) 4 (readLE m (fatAddr info c) 4 &&& 0xF0000000 ||| v &&& 0x0FFFFFFF)

def freeSet (info : FsInfo) (m : Store) : Finset Nat :=
  (Finset.Ico 2 (entries info)).filter fun c => fat info m c = 0

theorem mem_freeSet {info : FsInfo} {m : Store} {c : Nat} :
    c ∈ freeSet info m ↔ Valid info c ∧ fat info m c = 0 := by
  simp [freeSet, Valid]

/-! ### Addresses -/

section Addresses

variable {info : FsInfo} {c c' : Nat}

/-- The FAT ends where the data begin. -/
theorem fatAddr_lt (hc : c < entries info) : fatAddr info c + 4 ≤ 512 * info.dataStart := by
  unfold entries at hc
  unfold fatAddr
  omega

theorem dataAddr_ge (info : FsInfo) (c : Nat) : 512 * info.dataStart ≤ dataAddr info c := by
  unfold dataAddr
  omega

/-- FAT entries are apart from the data. -/
theorem fatAddr_lt_dataAddr (hc : c < entries info) (c' : Nat) :
    fatAddr info c + 4 ≤ dataAddr info c' :=
  (fatAddr_lt hc).trans (dataAddr_ge info c')

theorem fatAddr_disjoint (h : c ≠ c') :
    fatAddr info c + 4 ≤ fatAddr info c' ∨ fatAddr info c' + 4 ≤ fatAddr info c := by
  unfold fatAddr
  omega

/-- Whatever sector the FAT begins at, different clusters share no byte of it: their entries
are in one sector, or in two that are fewer than `2 ^ 32` apart. -/
theorem entryAddr_disjoint (hc : c < 2 ^ 28) (hc' : c' < 2 ^ 28) (h : c ≠ c') :
    entryAddr info c + 4 ≤ entryAddr info c' ∨ entryAddr info c' + 4 ≤ entryAddr info c := by
  unfold entryAddr wadd
  omega

/-- The data of different clusters are apart. -/
theorem dataAddr_disjoint (volume : Volume info) (hc : Valid info c) (hc' : Valid info c')
    (h : c ≠ c') :
    dataAddr info c + info.bytesPerCluster ≤ dataAddr info c' ∨
      dataAddr info c' + info.bytesPerCluster ≤ dataAddr info c := by
  have below : ∀ {a b : Nat}, 2 ≤ a → a < b →
      dataAddr info a + info.bytesPerCluster ≤ dataAddr info b := by
    intro a b ha hab
    have hmul : (a - 2 + 1) * info.sectorsPerCluster ≤ (b - 2) * info.sectorsPerCluster :=
      Nat.mul_le_mul_right _ (by omega)
    rw [Nat.add_mul, Nat.one_mul] at hmul
    unfold dataAddr
    rw [volume.bytesPerCluster]
    omega
  rcases Nat.lt_or_gt_of_ne h with hlt | hlt
  · exact Or.inl (below hc.1 hlt)
  · exact Or.inr (below hc'.1 hlt)

end Addresses

/-! ### FAT entries -/

section Entries

variable {info : FsInfo} {m : Store} {c c' v : Nat}

theorem and_mask (n : Nat) : n &&& 0x0FFFFFFF = n % 2 ^ 28 :=
  Nat.and_two_pow_sub_one_eq_mod n 28

/-- The lower 28 bits of what `fat32_write_fat_entry` stores. -/
theorem setFat_value (n v : Nat) :
    (n &&& 0xF0000000 ||| v &&& 0x0FFFFFFF) % 256 ^ 4 &&& 0x0FFFFFFF = v &&& 0x0FFFFFFF := by
  have hpow : (256 : Nat) ^ 4 = 2 ^ 32 := by norm_num
  rw [hpow, ← Nat.and_two_pow_sub_one_eq_mod]
  apply Nat.eq_of_testBit_eq
  intro i
  have hlow : Nat.testBit 0x0FFFFFFF i = decide (i < 28) := Nat.testBit_two_pow_sub_one 28 i
  have hword : Nat.testBit (2 ^ 32 - 1) i = decide (i < 32) := Nat.testBit_two_pow_sub_one 32 i
  have hhigh : i < 28 → Nat.testBit 0xF0000000 i = false := by
    intro hi
    have hshift : (0xF0000000 : Nat) = 0xF * 2 ^ 28 := by norm_num
    rw [hshift, Nat.testBit_mul_two_pow]
    simp [Nat.not_le.mpr hi]
  simp only [Nat.testBit_and, Nat.testBit_or, hlow, hword]
  by_cases hi : i < 28
  · have h32 : i < 32 := by omega
    simp [hi, hhigh hi, h32]
  · simp [hi]

/-- The upper four bits of what `fat32_write_fat_entry` stores. -/
theorem setFat_reserved {n : Nat} (hn : n < 2 ^ 32) (v : Nat) :
    ((n &&& 0xF0000000 ||| v &&& 0x0FFFFFFF) % 256 ^ 4) >>> 28 = n >>> 28 := by
  have hpow : (256 : Nat) ^ 4 = 2 ^ 32 := by norm_num
  rw [hpow, ← Nat.and_two_pow_sub_one_eq_mod]
  apply Nat.eq_of_testBit_eq
  intro i
  have hlow : Nat.testBit 0x0FFFFFFF (28 + i) = false := by
    rw [show (0x0FFFFFFF : Nat) = 2 ^ 28 - 1 from rfl, Nat.testBit_two_pow_sub_one]
    simp
  have hhigh : Nat.testBit 0xF0000000 (28 + i) = decide (i < 4) := by
    rw [show (0xF0000000 : Nat) = (2 ^ 4 - 1) * 2 ^ 28 from rfl, Nat.testBit_mul_two_pow,
      Nat.testBit_two_pow_sub_one]
    simp
  have hword : Nat.testBit (2 ^ 32 - 1) (28 + i) = decide (i < 4) := by
    rw [Nat.testBit_two_pow_sub_one, decide_eq_decide]
    omega
  simp only [Nat.testBit_shiftRight, Nat.testBit_and, Nat.testBit_or, hlow, hhigh, hword]
  by_cases hi : i < 4
  · simp [hi]
  · have hout : n < 2 ^ (28 + i) := lt_of_lt_of_le hn (Nat.pow_le_pow_right (by decide) (by omega))
    simp [hi, Nat.testBit_lt_two_pow hout]

theorem fat_setFat_same : fat info (setFat info m c v) c = v &&& 0x0FFFFFFF := by
  rw [fat, setFat, readLE_writeLE_same]
  exact setFat_value _ v

theorem setFat_frame (info : FsInfo) (m : Store) (c v : Nat) :
    Frame m (setFat info m c v) (fatAddr info c) (fatAddr info c + 4) :=
  writeLE_frame ..

theorem fat_setFat_other (h : c' ≠ c) : fat info (setFat info m c v) c' = fat info m c' := by
  rw [fat, fat, (setFat_frame info m c v).readLE_eq (fatAddr_disjoint (Ne.symm h))]

theorem fat_congr {m' : Store} (h : Set.EqOn m m' (Set.Ico (fatAddr info c) (fatAddr info c + 4))) :
    fat info m c = fat info m' c := by
  rw [fat, fat, readLE_congr h]

/-- A used entry leaves the free clusters. -/
theorem freeSet_setFat (hv : v &&& 0x0FFFFFFF ≠ 0) :
    freeSet info (setFat info m c v) = (freeSet info m).erase c := by
  ext x
  rw [Finset.mem_erase, mem_freeSet, mem_freeSet]
  by_cases hx : x = c
  · subst hx
    rw [fat_setFat_same]
    simp [hv]
  · rw [fat_setFat_other hx]
    simp [hx]

end Entries

/-! ### Sectors of the store -/

/-- `sector` holds the bytes of sector `lba` of the store. -/
def IsSector (m : Store) (lba : Nat) (sector : Store) : Prop :=
  ∀ o < 512, sector o = m (512 * lba + o)

theorem IsSector.readLE_eq {m sector : Store} {lba o n : Nat} (h : IsSector m lba sector)
    (ho : o + n ≤ 512) : readLE sector o n = readLE m (512 * lba + o) n := by
  refine readLE_shift fun k hk => ?_
  rw [h _ (by omega), Nat.add_assoc]

/-- Writing back a sector with some of its bytes changed changes these bytes of the store. -/
theorem IsSector.patch {m sector : Store} {lba o n : Nat} (h : IsSector m lba sector)
    (ho : o + n ≤ 512) (f : Nat → UInt8) :
    (fun a => if 512 * lba ≤ a ∧ a < 512 * lba + 512 then
        (if o ≤ a - 512 * lba ∧ a - 512 * lba < o + n then f (a - 512 * lba - o)
          else sector (a - 512 * lba))
      else m a)
      = fun a => if 512 * lba + o ≤ a ∧ a < 512 * lba + o + n then f (a - (512 * lba + o))
          else m a := by
  funext a
  by_cases hin : 512 * lba ≤ a ∧ a < 512 * lba + 512
  · rw [if_pos hin]
    by_cases hpatch : o ≤ a - 512 * lba ∧ a - 512 * lba < o + n
    · rw [if_pos hpatch, if_pos (by omega), Nat.sub_sub]
    · rw [if_neg hpatch, if_neg (by omega), h _ (by omega), Nat.add_sub_cancel' hin.1]
  · rw [if_neg hin, if_neg (by omega)]

/-! ### The operations on a disk that works -/

section Operations

variable {ata : Ata σ} {disk : σ → Store} {info : FsInfo} {c v : Nat} {d : σ}

theorem fat32ReadFatEntry_at (reliable : Reliable ata disk) (hsize : info.bytesPerSector = 512)
    (hc : c < 2 ^ 30) (d : σ) :
    ∃ d', fat32ReadFatEntry ata info c d
        = (readLE (disk d) (entryAddr info c) 4 &&& 0x0FFFFFFF, d') ∧ disk d' = disk d := by
  have hmul : wmul 32 c 4 = c * 4 := wmul_of_lt (by omega)
  obtain ⟨sector, d', hread, hsector, hdisk⟩ :=
    reliable.read (wadd 32 info.fatStart (c * 4 / 512)) d (wadd_lt ..)
  refine ⟨d', ?_, hdisk⟩
  have hword : readLE sector (c * 4 % 512) 4 = readLE (disk d) (entryAddr info c) 4 :=
    IsSector.readLE_eq hsector (by omega)
  rw [fat32ReadFatEntry, hsize, hmul, hread]
  simp only [hword]

theorem fat32WriteFatEntry_at (reliable : Reliable ata disk) (hsize : info.bytesPerSector = 512)
    (hc : c < 2 ^ 30) (v : Nat) (d : σ) :
    ∃ d', fat32WriteFatEntry ata info c v d = (FS_SUCCESS, d') ∧
      disk d' = writeLE (disk d) (entryAddr info c) 4
        (readLE (disk d) (entryAddr info c) 4 &&& 0xF0000000 ||| v &&& 0x0FFFFFFF) := by
  have hmul : wmul 32 c 4 = c * 4 := wmul_of_lt (by omega)
  obtain ⟨sector, d₁, hread, hsector, hdisk₁⟩ :=
    reliable.read (wadd 32 info.fatStart (c * 4 / 512)) d (wadd_lt ..)
  have hword : readLE sector (c * 4 % 512) 4 = readLE (disk d) (entryAddr info c) 4 :=
    IsSector.readLE_eq hsector (by omega)
  obtain ⟨d₂, hwrite, hdisk₂⟩ := reliable.write (wadd 32 info.fatStart (c * 4 / 512))
    (writeLE sector (c * 4 % 512) 4
      (readLE (disk d) (entryAddr info c) 4 &&& 0xF0000000 ||| v &&& 0x0FFFFFFF)) d₁ (wadd_lt ..)
  refine ⟨d₂, ?_, ?_⟩
  · rw [fat32WriteFatEntry, hsize, hmul, hread]
    simp only [hword, hwrite]
  · rw [hdisk₂, hdisk₁]
    exact IsSector.patch (o := c * 4 % 512) (n := 4) hsector (by omega) fun k =>
      UInt8.ofNat ((readLE (disk d) (entryAddr info c) 4 &&& 0xF0000000 ||| v &&& 0x0FFFFFFF)
        / 256 ^ k)

theorem Layout.fat_sector (layout : Layout info) (hc : c < entries info) :
    info.fatStart + c * 4 / 512 < 2 ^ 32 := by
  have hdata := layout.dataStart
  unfold entries at hc
  omega

/-- The place of an entry where the number of its sector is not wrapped around. -/
theorem entryAddr_eq (h : info.fatStart + c * 4 / 512 < 2 ^ 32) :
    entryAddr info c = fatAddr info c := by
  unfold entryAddr fatAddr
  rw [wadd_of_lt h]
  omega

theorem fat32ReadFatEntry_eq (reliable : Reliable ata disk) (volume : Volume info)
    (hc : c < entries info) (d : σ) :
    ∃ d', fat32ReadFatEntry ata info c d = (fat info (disk d) c, d') ∧ disk d' = disk d := by
  rw [fat, ← entryAddr_eq (volume.layout.fat_sector hc)]
  exact fat32ReadFatEntry_at reliable volume.bytesPerSector (volume.lt_of_entries hc) d

theorem Layout.writeFatEntry (reliable : Reliable ata disk) (layout : Layout info)
    (hc : c < entries info) (hlt : c < 2 ^ 30) (v : Nat) (d : σ) :
    ∃ d', fat32WriteFatEntry ata info c v d = (FS_SUCCESS, d') ∧
      disk d' = setFat info (disk d) c v := by
  rw [setFat, ← entryAddr_eq (layout.fat_sector hc)]
  exact fat32WriteFatEntry_at reliable layout.bytesPerSector hlt v d

theorem fat32WriteFatEntry_eq (reliable : Reliable ata disk) (volume : Volume info)
    (hc : c < entries info) (v : Nat) (d : σ) :
    ∃ d', fat32WriteFatEntry ata info c v d = (FS_SUCCESS, d') ∧
      disk d' = setFat info (disk d) c v :=
  volume.layout.writeFatEntry reliable hc (volume.lt_of_entries hc) v d

/-! ### The search for a free entry -/

/-- The search would take entry `e`: it is free, and its number, of which 30 bits are
computed, is that of a cluster. -/
def Takes (info : FsInfo) (m : Store) (e : Nat) : Prop := fat info m e = 0 ∧ 2 ≤ e % 2 ^ 30

/-- Entry `e` is the first from `k` on that the search would take. -/
structure First (info : FsInfo) (m : Store) (k e : Nat) : Prop where
  ge : k ≤ e
  takes : Takes info m e
  least : ∀ e', k ≤ e' → e' < e → ¬ Takes info m e'

theorem First.weaken {m : Store} {k e : Nat} (h : First info m (k + 1) e)
    (hk : ¬ Takes info m k) : First info m k e := by
  refine ⟨Nat.le_of_succ_le h.ge, h.takes, fun e' hle hlt => ?_⟩
  rcases Nat.eq_or_lt_of_le hle with rfl | hmore
  · exact hk
  · exact h.least e' hmore hlt

theorem First.append {m : Store} {k l e : Nat} (h : First info m l e) (hkl : k ≤ l)
    (hnone : ∀ e', k ≤ e' → e' < l → ¬ Takes info m e') : First info m k e := by
  refine ⟨hkl.trans h.ge, h.takes, fun e' hle hlt => ?_⟩
  by_cases hl : e' < l
  · exact hnone e' hle hl
  · exact h.least e' (by omega) hlt

/-- The search of one sector. -/
theorem freeInSector_cases {sector : Store} {s n k : Nat} (layout : Layout info)
    (hsector : IsSector (disk d) (info.fatStart + s) sector) (hn : k + n = 128) :
    (∃ e < (s + 1) * 128, First info (disk d) (s * 128 + k) e ∧
        freeInSector info sector s n (4 * k) = some (e % 2 ^ 30)) ∨
      freeInSector info sector s n (4 * k) = none ∧
        ∀ e, s * 128 + k ≤ e → e < (s + 1) * 128 → ¬ Takes info (disk d) e := by
  induction n generalizing k with
  | zero =>
      refine Or.inr ⟨rfl, fun e hle hlt => ?_⟩
      omega
  | succ n ih =>
      have hcluster : wadd 32 (wmul 32 s info.bytesPerSector) (4 * k) / 4
          = (s * 128 + k) % 2 ^ 30 := by
        rw [layout.bytesPerSector, wadd, wmul, Nat.add_mod_mod]
        omega
      have hentry : readLE sector (4 * k) 4 &&& 0x0FFFFFFF = fat info (disk d) (s * 128 + k) := by
        have haddr : 512 * (info.fatStart + s) + 4 * k = fatAddr info (s * 128 + k) := by
          unfold fatAddr
          omega
        rw [hsector.readLE_eq (by omega), haddr, fat]
      rw [freeInSector]
      simp only [hcluster, hentry]
      split
      next hfree =>
        refine Or.inl ⟨s * 128 + k, by omega, ⟨Nat.le_refl _, hfree, fun e' hle hlt => ?_⟩, rfl⟩
        omega
      next hused =>
        have hstep : 4 * k + 4 = 4 * (k + 1) := by omega
        rw [hstep]
        rcases ih (k := k + 1) (by omega) with ⟨e, hlt, first, hfound⟩ | ⟨hnone, hrest⟩
        · exact Or.inl ⟨e, hlt, first.weaken hused, hfound⟩
        · refine Or.inr ⟨hnone, fun e hle hlt => ?_⟩
          rcases Nat.eq_or_lt_of_le hle with rfl | hmore
          · exact hused
          · exact hrest e hmore hlt

/-- The search of the sectors from `s` on. -/
theorem allocateFrom_cases (reliable : Reliable ata disk) (layout : Layout info) {n s : Nat}
    (hn : s + n = info.dataStart - info.fatStart) (d : σ) :
    (∃ e d', e < entries info ∧ First info (disk d) (s * 128) e ∧
        allocateFrom ata info n s d = (e % 2 ^ 30, d') ∧
        disk d' = setFat info (disk d) (e % 2 ^ 30) FAT32_EOC) ∨
      (∃ d', allocateFrom ata info n s d = (0, d') ∧ disk d' = disk d) ∧
        ∀ e, s * 128 ≤ e → e < entries info → ¬ Takes info (disk d) e := by
  have hdata := layout.dataStart
  induction n generalizing s d with
  | zero =>
      refine Or.inr ⟨⟨d, rfl, rfl⟩, fun e hle hlt => ?_⟩
      unfold entries at hlt
      omega
  | succ n ih =>
      have hlt : info.fatStart + s < 2 ^ 32 := by omega
      obtain ⟨sector, d₁, hread, hsector, hdisk⟩ := reliable.read (info.fatStart + s) d hlt
      have hcount : (info.bytesPerSector + 3) / 4 = 128 := by
        rw [layout.bytesPerSector]
      have hin : (s + 1) * 128 ≤ entries info := by
        unfold entries
        omega
      rw [allocateFrom, wadd_of_lt hlt, hread]
      simp only [hcount]
      have hsearch := freeInSector_cases (d := d) (k := 0) (n := 128) layout hsector rfl
      rw [Nat.mul_zero, Nat.add_zero] at hsearch
      rcases hsearch with ⟨e, he, first, hfound⟩ | ⟨hnone, hrest⟩
      · rw [hfound]
        have hnumber : e % 2 ^ 30 < entries info :=
          (Nat.mod_le _ _).trans_lt (lt_of_lt_of_le he hin)
        obtain ⟨d₂, hwrite, hdisk₂⟩ := layout.writeFatEntry reliable hnumber
          (Nat.mod_lt _ (Nat.two_pow_pos 30)) FAT32_EOC d₁
        refine Or.inl ⟨e, d₂, lt_of_lt_of_le he hin, first, ?_, by rw [hdisk₂, hdisk]⟩
        simp only [hwrite]
      · rw [hnone]
        have hnext := ih (s := s + 1) (by omega) d₁
        rw [hdisk] at hnext
        rcases hnext with ⟨e, d₂, he, first, hfound, hdisk₂⟩ | ⟨hfull, hbelow⟩
        · exact Or.inl ⟨e, d₂, he, first.append (by omega) hrest, hfound, hdisk₂⟩
        · refine Or.inr ⟨hfull, fun e hle hlt' => ?_⟩
          by_cases hhere : e < (s + 1) * 128
          · exact hrest e hle hhere
          · exact hbelow e (by omega) hlt'

/-- The search of all the FATs. -/
theorem Layout.allocate_cases (reliable : Reliable ata disk) (layout : Layout info) (d : σ) :
    (∃ e d', e < entries info ∧ First info (disk d) 0 e ∧
        fat32AllocateCluster ata info d = (e % 2 ^ 30, d') ∧
        disk d' = setFat info (disk d) (e % 2 ^ 30) FAT32_EOC) ∨
      (∃ d', fat32AllocateCluster ata info d = (0, d') ∧ disk d' = disk d) ∧
        ∀ e < entries info, ¬ Takes info (disk d) e := by
  have hsectors : wsub 32 info.dataStart info.fatStart = info.dataStart - info.fatStart :=
    wsub_of_le layout.dataStart layout.fatStart
  rw [fat32AllocateCluster, layout.mounted, hsectors]
  have hsearch := allocateFrom_cases reliable layout (Nat.zero_add _) d
  rw [Nat.zero_mul] at hsearch
  rcases hsearch with hfound | ⟨hfull, hnone⟩
  · exact Or.inl hfound
  · exact Or.inr ⟨hfull, fun e => hnone e (Nat.zero_le e)⟩

/-- With one FAT, an allocation takes a free cluster where there is one, and changes
nothing else. -/
theorem fat32AllocateCluster_cases (reliable : Reliable ata disk) (volume : Volume info) (d : σ) :
    (∃ c d', fat32AllocateCluster ata info d = (c, d') ∧ c ∈ freeSet info (disk d) ∧
        disk d' = setFat info (disk d) c FAT32_EOC) ∨
      (∃ d', fat32AllocateCluster ata info d = (0, d') ∧ disk d' = disk d) ∧
        freeSet info (disk d) = ∅ := by
  rcases volume.layout.allocate_cases reliable d with
    ⟨e, d', he, first, hfound, hdisk⟩ | ⟨hfull, hnone⟩
  · have hnumber : e % 2 ^ 30 = e := Nat.mod_eq_of_lt (volume.lt_of_entries he)
    have htakes := first.takes
    rw [Takes, hnumber] at htakes
    rw [hnumber] at hfound hdisk
    exact Or.inl ⟨e, d', hfound, mem_freeSet.mpr ⟨⟨htakes.2, he⟩, htakes.1⟩, hdisk⟩
  · refine Or.inr ⟨hfull, Finset.eq_empty_of_forall_notMem fun c hc => ?_⟩
    obtain ⟨⟨hge, hlt⟩, hfree⟩ := mem_freeSet.mp hc
    refine hnone c hlt ⟨hfree, ?_⟩
    rw [Nat.mod_eq_of_lt (volume.lt_of_entries hlt)]
    exact hge

end Operations

end Curnel.Filesystem
