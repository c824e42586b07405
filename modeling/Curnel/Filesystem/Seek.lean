/-
The seek loops of fs_read and fs_write, near the end of 32 bits.

Both loops compare `pos + bytes_per_cluster`, added in 32 bits, with the position of the
file, and follow one link of the FAT a round. `SeekLoop` is what they have in common; a
loop of that kind goes through the clusters of the chain one by one (`SeekLoop.goes`), and
stops at the one that holds the position unless the sum wraps before
(`seek_loops_exact_iff`). The rounds are the `advance` events of `Accesses`.
-/

import Curnel.Filesystem.Accesses

namespace Curnel.Filesystem

open Lib Bytes Word

variable {σ : Type}

/-- The `k`-th cluster from `first` on, and the disk when its number has been read. -/
def walkFat (ata : Ata σ) (info : FsInfo) (first : Nat) (d : σ) : Nat → Nat × σ
  | 0 => (first, d)
  | k + 1 =>
      let (cluster, d) := walkFat ata info first d k
      fat32ReadFatEntry ata info cluster d

/-- The rounds of a seek loop: `pos` before and after each of them. -/
def rounds : List Access → List (Nat × Nat) :=
  List.filterMap fun
    | .advance pos next => some (pos, next)
    | _ => none

/-- The call returns at the cluster of the position, after a round for each cluster before
it, in which `pos` goes up by the size of a cluster. -/
def SeeksExactly (ata : Ata σ) (info : FsInfo) (position first : Nat) (d : σ)
    (seek : Nat → Nat → Nat → σ → Option (Option Nat × σ))
    (accesses : Nat → Nat → Nat → σ → List Access) : Prop :=
  ∃ fuel, seek fuel 0 first d
      = some (some (walkFat ata info first d (position / info.bytesPerCluster)).1,
        (walkFat ata info first d (position / info.bytesPerCluster)).2) ∧
    rounds (accesses fuel 0 first d) = (List.range (position / info.bytesPerCluster)).map
      fun k => (k * info.bytesPerCluster, (k + 1) * info.bytesPerCluster)

/-! ### What the two loops have in common -/

section SeekLoop

variable {ata : Ata σ} {info : FsInfo} {position first : Nat} {d : σ}
  {seek : Nat → Nat → Nat → σ → Option (Option Nat × σ)}
  {accesses : Nat → Nat → Nat → σ → List Access}

/-- A loop that follows the FAT as long as the next cluster begins within the position. -/
structure SeekLoop (ata : Ata σ) (info : FsInfo) (position : Nat)
    (seek : Nat → Nat → Nat → σ → Option (Option Nat × σ))
    (accesses : Nat → Nat → Nat → σ → List Access) : Prop where
  zero : ∀ pos cluster d, seek 0 pos cluster d = none
  stop : ∀ fuel pos cluster d, ¬ wadd 32 pos info.bytesPerCluster ≤ position →
    seek (fuel + 1) pos cluster d = some (some cluster, d) ∧
      accesses (fuel + 1) pos cluster d = []
  go : ∀ fuel pos cluster d, wadd 32 pos info.bytesPerCluster ≤ position →
    (fat32ReadFatEntry ata info cluster d).1 < FAT32_EOC →
    seek (fuel + 1) pos cluster d = seek fuel (wadd 32 pos info.bytesPerCluster)
        (fat32ReadFatEntry ata info cluster d).1 (fat32ReadFatEntry ata info cluster d).2 ∧
      rounds (accesses (fuel + 1) pos cluster d) = (pos, wadd 32 pos info.bytesPerCluster) ::
        rounds (accesses fuel (wadd 32 pos info.bytesPerCluster)
          (fat32ReadFatEntry ata info cluster d).1 (fat32ReadFatEntry ata info cluster d).2)
  /-- To get on from here takes a round, even where the chain ends. -/
  round : ∀ fuel pos cluster d c d', wadd 32 pos info.bytesPerCluster ≤ position →
    seek (fuel + 1) pos cluster d = some (some c, d') →
    rounds (accesses (fuel + 1) pos cluster d) ≠ []

theorem rounds_append (xs ys : List Access) : rounds (xs ++ ys) = rounds xs ++ rounds ys :=
  List.filterMap_append

theorem rounds_fatEntryAccesses (ata : Ata σ) (info : FsInfo) (cluster : Nat) (d : σ) :
    rounds (fatEntryAccesses ata info cluster d) = [] := by
  unfold fatEntryAccesses
  dsimp only
  split <;> rfl

theorem seekToRead_loop (ata : Ata σ) (info : FsInfo) (position : Nat) :
    SeekLoop ata info position (seekToRead ata info position)
      (seekToReadAccesses ata info position) where
  zero _ _ _ := rfl
  stop fuel pos cluster d h := by
    rw [seekToRead, if_neg h, seekToReadAccesses, if_neg h]
    exact ⟨rfl, rfl⟩
  go fuel pos cluster d h hgo := by
    rw [seekToRead, if_pos h, seekToReadAccesses, if_pos h, rounds_append,
      rounds_fatEntryAccesses]
    dsimp only
    rw [if_neg (Nat.not_le.mpr hgo), if_neg (Nat.not_le.mpr hgo)]
    exact ⟨rfl, rfl⟩
  round fuel pos cluster d c d' h hrun := by
    rw [seekToRead, if_pos h] at hrun
    rw [seekToReadAccesses, if_pos h, rounds_append, rounds_fatEntryAccesses]
    dsimp only at hrun ⊢
    split at hrun
    next => cases hrun
    next hgo =>
      rw [if_neg hgo]
      exact List.cons_ne_nil _ _

theorem seekToWrite_loop (ata : Ata σ) (info : FsInfo) (position : Nat) :
    SeekLoop ata info position (seekToWrite ata info position)
      (seekToWriteAccesses ata info position) where
  zero _ _ _ := rfl
  stop fuel pos cluster d h := by
    rw [seekToWrite, if_neg h, seekToWriteAccesses, if_neg h]
    exact ⟨rfl, rfl⟩
  go fuel pos cluster d h hgo := by
    rw [seekToWrite, if_pos h, seekToWriteAccesses, if_pos h, rounds_append,
      rounds_fatEntryAccesses]
    dsimp only
    rw [if_neg (Nat.not_le.mpr hgo), if_neg (Nat.not_le.mpr hgo)]
    exact ⟨rfl, rfl⟩
  round fuel pos cluster d c d' h hrun := by
    rw [seekToWrite, if_pos h] at hrun
    rw [seekToWriteAccesses, if_pos h, rounds_append, rounds_fatEntryAccesses]
    dsimp only at hrun ⊢
    split at hrun
    next hend =>
      rw [if_pos hend, rounds_append]
      split at hrun
      next => cases hrun
      next hnew =>
        rw [if_neg hnew, rounds_append]
        intro hnil
        simp [rounds] at hnil
    next hgo =>
      rw [if_neg hgo]
      exact List.cons_ne_nil _ _

/-- As long as the sum is within the position, the loop goes along the chain. -/
theorem SeekLoop.goes (loop : SeekLoop ata info position seek accesses)
    (hposition : position < 2 ^ 32) {k : Nat} (hk : k * info.bytesPerCluster ≤ position)
    (hchain : ∀ j ≤ k, (walkFat ata info first d j).1 < FAT32_EOC) (fuel : Nat) :
    seek (fuel + k) 0 first d = seek fuel (k * info.bytesPerCluster)
        (walkFat ata info first d k).1 (walkFat ata info first d k).2 ∧
      rounds (accesses (fuel + k) 0 first d)
        = (List.range k).map (fun j => (j * info.bytesPerCluster, (j + 1) * info.bytesPerCluster))
          ++ rounds (accesses fuel (k * info.bytesPerCluster)
            (walkFat ata info first d k).1 (walkFat ata info first d k).2) := by
  induction k generalizing fuel with
  | zero =>
      rw [Nat.zero_mul]
      exact ⟨rfl, rfl⟩
  | succ k ih =>
      have hstep : (k + 1) * info.bytesPerCluster
          = k * info.bytesPerCluster + info.bytesPerCluster := Nat.succ_mul _ _
      obtain ⟨hseek, hrounds⟩ := ih (by omega) (fun j hj => hchain j (by omega)) (fuel + 1)
      have hsum : wadd 32 (k * info.bytesPerCluster) info.bytesPerCluster
          = (k + 1) * info.bytesPerCluster := by
        rw [hstep]
        exact wadd_of_lt (by omega)
      obtain ⟨hseek', hrounds'⟩ := loop.go fuel (k * info.bytesPerCluster)
        (walkFat ata info first d k).1 (walkFat ata info first d k).2
        (by rw [hsum]; exact hk) (hchain (k + 1) (Nat.le_refl _))
      have hfuel : fuel + (k + 1) = fuel + 1 + k := by omega
      rw [hfuel, hseek, hrounds, hseek', hrounds', hsum, List.range_succ, List.map_append,
        List.append_assoc]
      exact ⟨rfl, rfl⟩

/-- Where the sum does not wrap, the loop stops at the cluster of the position. -/
theorem SeekLoop.exact (loop : SeekLoop ata info position seek accesses)
    (hposition : position < 2 ^ 32) (hpos : 0 < info.bytesPerCluster)
    (hchain : ∀ k ≤ position / info.bytesPerCluster, (walkFat ata info first d k).1 < FAT32_EOC)
    (hlt : (position / info.bytesPerCluster + 1) * info.bytesPerCluster < 2 ^ 32) :
    SeeksExactly ata info position first d seek accesses := by
  have hdiv := Nat.div_mul_le_self position info.bytesPerCluster
  have hover := Nat.lt_div_mul_add (a := position) hpos
  rw [Nat.add_mul, Nat.one_mul] at hlt
  obtain ⟨hseek, hrounds⟩ := loop.goes hposition hdiv hchain 1
  obtain ⟨hstop, hnone⟩ := loop.stop 0 (position / info.bytesPerCluster * info.bytesPerCluster)
    (walkFat ata info first d (position / info.bytesPerCluster)).1
    (walkFat ata info first d (position / info.bytesPerCluster)).2
    (by rw [wadd_of_lt hlt]; omega)
  refine ⟨1 + position / info.bytesPerCluster, hseek.trans hstop, ?_⟩
  rw [hrounds, hnone]
  exact List.append_nil _

/-- Where it wraps, the loop takes another round at that cluster, or does not get on. -/
theorem SeekLoop.not_exact (loop : SeekLoop ata info position seek accesses)
    (hposition : position < 2 ^ 32) (hbytes : info.bytesPerCluster ≤ 2 ^ 32)
    (hchain : ∀ k ≤ position / info.bytesPerCluster, (walkFat ata info first d k).1 < FAT32_EOC)
    (hwraps : 2 ^ 32 ≤ (position / info.bytesPerCluster + 1) * info.bytesPerCluster) :
    ¬ SeeksExactly ata info position first d seek accesses := by
  rintro ⟨fuel, hseek, hrounds⟩
  have hdiv := Nat.div_mul_le_self position info.bytesPerCluster
  rw [Nat.add_mul, Nat.one_mul] at hwraps
  rcases Nat.le_total fuel (position / info.bytesPerCluster) with hle | hge
  · -- the fuel runs out before
    have hmul := Nat.mul_le_mul_right info.bytesPerCluster hle
    obtain ⟨hgoes, -⟩ := loop.goes hposition (hmul.trans hdiv)
      (fun j hj => hchain j (hj.trans hle)) 0
    rw [Nat.zero_add, hseek, loop.zero] at hgoes
    cases hgoes
  obtain ⟨rest, rfl⟩ := Nat.exists_eq_add_of_le hge
  rw [Nat.add_comm] at hseek hrounds
  obtain ⟨hgoes, hgoes'⟩ := loop.goes hposition hdiv hchain rest
  rw [hgoes] at hseek
  rw [hgoes'] at hrounds
  have hnone := List.append_right_eq_self.mp hrounds
  cases rest with
  | zero =>
      rw [loop.zero] at hseek
      cases hseek
  | succ rest =>
      have hwrapped : wadd 32 (position / info.bytesPerCluster * info.bytesPerCluster)
          info.bytesPerCluster ≤ position := by
        unfold wadd
        omega
      exact loop.round _ _ _ _ _ _ hwrapped hseek hnone

end SeekLoop

/-! ### Both loops -/

theorem next_lt_iff {position bytes : Nat} (hpos : 0 < bytes) :
    (position / bytes + 1) * bytes < 2 ^ 32 ↔ position < (2 ^ 32 - 1) / bytes * bytes := by
  rw [← Nat.div_lt_iff_lt_mul hpos, ← Nat.succ_le_iff (m := position / bytes),
    Nat.le_div_iff_mul_le hpos, Nat.succ_eq_add_one]
  omega

/-- **The seek loops.** With clusters of 512 to 2²⁴ bytes and a chain that is longer than the
clusters before the position, the loop of `fs_read` and that of `fs_write` run once for each
of these clusters and stop at the next, exactly when the position lies before the last
multiple of the cluster size below 2³². That is also when no sum wraps. -/
theorem seek_loops_exact_iff {ata : Ata σ} {info : FsInfo} {position first : Nat} {d : σ}
    (hbytes : 512 ≤ info.bytesPerCluster ∧ info.bytesPerCluster ≤ 2 ^ 24)
    (hposition : position < 2 ^ 32)
    (hchain : ∀ k ≤ position / info.bytesPerCluster,
      (walkFat ata info first d k).1 < FAT32_EOC) :
    (SeeksExactly ata info position first d (seekToRead ata info position)
        (seekToReadAccesses ata info position) ↔
      position < (2 ^ 32 - 1) / info.bytesPerCluster * info.bytesPerCluster) ∧
    (SeeksExactly ata info position first d (seekToWrite ata info position)
        (seekToWriteAccesses ata info position) ↔
      position < (2 ^ 32 - 1) / info.bytesPerCluster * info.bytesPerCluster) ∧
    ((∀ k ≤ position / info.bytesPerCluster,
        k * info.bytesPerCluster + info.bytesPerCluster < 2 ^ 32) ↔
      position < (2 ^ 32 - 1) / info.bytesPerCluster * info.bytesPerCluster) := by
  have hpos : 0 < info.bytesPerCluster := by omega
  rw [← next_lt_iff hpos]
  have loop_iff : ∀ {seek accesses}, SeekLoop ata info position seek accesses →
      (SeeksExactly ata info position first d seek accesses ↔
        (position / info.bytesPerCluster + 1) * info.bytesPerCluster < 2 ^ 32) := by
    intro seek accesses loop
    constructor
    · intro h
      by_contra hwraps
      exact loop.not_exact hposition (by omega) hchain (Nat.le_of_not_lt hwraps) h
    · exact loop.exact hposition hpos hchain
  refine ⟨loop_iff (seekToRead_loop ata info position), loop_iff (seekToWrite_loop ata info position),
    fun h => ?_, fun h k hk => ?_⟩
  · rw [Nat.add_mul, Nat.one_mul]
    exact h _ (Nat.le_refl _)
  · have := Nat.mul_le_mul_right info.bytesPerCluster (Nat.succ_le_succ hk)
    rw [Nat.succ_mul] at this
    exact lt_of_le_of_lt this h

/-! ### A long file -/

/-- A volume of clusters of 512 bytes. -/
def longVolume : FsInfo := { smallVolume with dataStart := 2 ^ 20 }

/-- Every cluster of it links to the one behind it. -/
def longChain : Store := fun a => UInt8.ofNat ((a / 4 - 127) / 256 ^ (a % 4))

theorem fat_longChain {c : Nat} (hc : c + 1 < 2 ^ 28) : fat longVolume longChain c = c + 1 := by
  have hbytes : ∀ i < 4, longChain (fatAddr longVolume c + i) = UInt8.ofNat ((c + 1) / 256 ^ i) := by
    intro i hi
    have haddr : fatAddr longVolume c = 512 + 4 * c := rfl
    have hentry : (512 + 4 * c + i) / 4 - 127 = c + 1 := by omega
    have hbyte : (512 + 4 * c + i) % 4 = i := by omega
    rw [longChain, haddr, hentry, hbyte]
  rw [fat, readLE_of_bytes _ _ _ _ hbytes, and_mask]
  omega

theorem walkFat_longChain {k : Nat} (hk : k + 2 < 2 ^ 27) :
    walkFat memoryDisk longVolume 2 longChain k = (k + 2, longChain) := by
  have sectored : Sectored longVolume := ⟨rfl, rfl, Nat.one_pos, rfl⟩
  induction k with
  | zero => rfl
  | succ k ih =>
      have readable : Readable longVolume (k + 2) := by
        refine ⟨⟨by omega, ?_⟩, ?_, ?_⟩
        · unfold FAT32_EOC
          omega
        · change 1 + (k + 2) * 4 / 512 < 2 ^ 32
          omega
        · change 2 ^ 20 + (k + 2 - 2 + 1) * 1 ≤ 2 ^ 32
          omega
      obtain ⟨d', hread, hdisk⟩ := readable.readFatEntry memoryDisk_reliable sectored longChain
      have hsame : d' = longChain := hdisk
      rw [walkFat, ih (by omega)]
      change fat32ReadFatEntry memoryDisk longVolume (k + 2) longChain = _
      rw [hread, hsame]
      change (fat longVolume longChain (k + 2), longChain) = _
      rw [fat_longChain (by omega)]

/-- The chain is longer than any position is far. -/
theorem longChain_long {position : Nat} (hposition : position < 2 ^ 32) :
    ∀ k ≤ position / longVolume.bytesPerCluster,
      (walkFat memoryDisk longVolume 2 longChain k).1 < FAT32_EOC := by
  intro k hk
  have hbytes : longVolume.bytesPerCluster = 512 := rfl
  rw [hbytes] at hk
  rw [walkFat_longChain (by omega)]
  unfold FAT32_EOC
  dsimp only
  omega

/-- The first byte of the third cluster. -/
theorem seek_loops_exact_iff_third :
    SeeksExactly memoryDisk longVolume 1024 2 longChain (seekToRead memoryDisk longVolume 1024)
      (seekToReadAccesses memoryDisk longVolume 1024) :=
  (seek_loops_exact_iff (by decide) (by decide) (longChain_long (by decide))).1.mpr (by decide)

/-- The last 512 bytes below 4 GB: neither loop stops at their cluster. -/
theorem seek_misses_last_cluster :
    (∀ k ≤ (2 ^ 32 - 512) / longVolume.bytesPerCluster,
      (walkFat memoryDisk longVolume 2 longChain k).1 < FAT32_EOC) ∧
    ¬ SeeksExactly memoryDisk longVolume (2 ^ 32 - 512) 2 longChain
      (seekToRead memoryDisk longVolume (2 ^ 32 - 512))
      (seekToReadAccesses memoryDisk longVolume (2 ^ 32 - 512)) ∧
    ¬ SeeksExactly memoryDisk longVolume (2 ^ 32 - 512) 2 longChain
      (seekToWrite memoryDisk longVolume (2 ^ 32 - 512))
      (seekToWriteAccesses memoryDisk longVolume (2 ^ 32 - 512)) := by
  have hchain := longChain_long (show 2 ^ 32 - 512 < 2 ^ 32 by decide)
  have hwraps : 2 ^ 32 ≤ ((2 ^ 32 - 512) / longVolume.bytesPerCluster + 1)
      * longVolume.bytesPerCluster := by decide
  exact ⟨hchain, (seekToRead_loop _ _ _).not_exact (by decide) (by decide) hchain hwraps,
    (seekToWrite_loop _ _ _).not_exact (by decide) (by decide) hchain hwraps⟩

end Curnel.Filesystem
