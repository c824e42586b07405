/-
When fs_readdir returns.

The loop has no counter. It passes over deleted entries and parts of long names, sector after
sector and cluster after cluster, until the disk gives it a reason to stop: the end of the
chain, a sector that cannot be read, an end marker or a live entry. `fs_readdir_returns_iff`
says that one of these must lie ahead; on a chain that runs into a cycle none need to.
-/

import Mathlib.Logic.Function.Iterate
import Curnel.Filesystem.Readdir
import Curnel.Lib.Run

namespace Curnel.Filesystem

open Lib Bytes Word

variable {σ : Type}

/-! ### The walk through the chain -/

/-- A disk that reads as an image says, each time. `none` is a sector that cannot be read. -/
def ReadsAs (ata : Ata σ) (image : Nat → Option Store) : Prop :=
  ∀ lba d, (ata.readSector lba d).1 = image lba

/-- The FAT entry of a cluster in an image, or 0 if its sector cannot be read. -/
def imageEntry (image : Nat → Option Store) (info : FsInfo) (cluster : Nat) : Nat :=
  let fatOffset := wmul 32 cluster 4
  match image (wadd 32 info.fatStart (fatOffset / info.bytesPerSector)) with
  | none => 0
  | some sector => readLE sector (fatOffset % info.bytesPerSector) 4 &&& 0x0FFFFFFF

/-- The cluster that `k` links of the FAT lead to from `c`. -/
def walkTo (image : Nat → Option Store) (info : FsInfo) (c k : Nat) : Nat :=
  (imageEntry image info)^[k] c

/-- Sector `q` of the walk from `c`, counted over all its clusters. -/
def walkSector (image : Nat → Option Store) (info : FsInfo) (c q : Nat) : Option Store :=
  image (Place.lba info
    ⟨walkTo image info c (q / info.sectorsPerCluster), q % info.sectorsPerCluster, 0⟩)

/-- The entries of one sector. -/
def perSector (info : FsInfo) : Nat := (info.bytesPerSector + 31) / 32

/-- Entry `t` of the walk, as the place the code is at. -/
def walkPlace (image : Nat → Option Store) (info : FsInfo) (c t : Nat) : Place :=
  let q := t / perSector info
  ⟨walkTo image info c (q / info.sectorsPerCluster), q % info.sectorsPerCluster,
    t % perSector info⟩

/-- The walk does not get past entry `t`: the chain ends there, or the next sector cannot be
read. -/
def WalkEnds (image : Nat → Option Store) (info : FsInfo) (c t : Nat) : Prop :=
  let q := t / perSector info
  let next := (t + 1) / perSector info
  q / info.sectorsPerCluster < next / info.sectorsPerCluster ∧
      FAT32_EOC ≤ walkTo image info c (next / info.sectorsPerCluster) ∨
    walkSector image info c next = none

/-- The entry that is looked at in the place of entry `t` is not passed over. -/
def Shows (image : Nat → Option Store) (info : FsInfo) (c t : Nat) : Prop :=
  ∃ sector, walkSector image info c ((t + 1) / perSector info) = some sector ∧
    kindOf sector (t % perSector info * 32) ≠ .skipped

section Walk

variable {ata : Ata σ} {image : Nat → Option Store} {info : FsInfo} {c : Nat}

theorem ReadsAs.readSector (reads : ReadsAs ata image) (lba : Nat) (d : σ) :
    ∃ d', ata.readSector lba d = (image lba, d') :=
  ⟨_, Prod.ext (reads lba d) rfl⟩

theorem ReadsAs.readFatEntry (reads : ReadsAs ata image) (info : FsInfo) (cluster : Nat)
    (d : σ) :
    ∃ d', fat32ReadFatEntry ata info cluster d = (imageEntry image info cluster, d') := by
  obtain ⟨d', hread⟩ := reads.readSector
    (wadd 32 info.fatStart (wmul 32 cluster 4 / info.bytesPerSector)) d
  refine ⟨d', ?_⟩
  unfold fat32ReadFatEntry imageEntry
  dsimp only
  rw [hread]
  cases image (wadd 32 info.fatStart (wmul 32 cluster 4 / info.bytesPerSector)) with
  | none => rfl
  | some sector => rfl

theorem walkTo_succ (k : Nat) :
    walkTo image info c (k + 1) = imageEntry image info (walkTo image info c k) :=
  Function.iterate_succ_apply' _ _ _

theorem walkTo_shift (k : Nat) :
    walkTo image info c (k + 1) = walkTo image info (imageEntry image info c) k :=
  Function.iterate_succ_apply _ _ _

theorem perSector_pos (hbytes : 0 < info.bytesPerSector) : 0 < perSector info := by
  unfold perSector
  omega

theorem sectorEnd_iff {e : Nat} : (e + 1) * 32 ≥ info.bytesPerSector ↔ e + 1 ≥ perSector info := by
  unfold perSector
  omega


/-- What the code does at a place whose sector it has to read. -/
def enterSector (ata : Ata σ) (info : FsInfo) (place : Place) (dir : File) (d : σ) :
    Option (Store × Place) × File × σ :=
  match ata.readSector (place.lba info) d with
  | (none, d) => (none, dir, d)
  | (some sector, d) => (some (sector, place), dir, d)

theorem nextEntry_inside {t : Nat} (hinside : ¬ t % perSector info + 1 ≥ perSector info)
    (sector : Store) (dir : File) (d : σ) :
    nextEntry ata info sector (walkPlace image info c t) dir d
      = (some (sector, walkPlace image info c (t + 1)), dir, d) := by
  obtain ⟨hsector, hentry⟩ := same_row hinside
  rw [← sectorEnd_iff] at hinside
  unfold nextEntry walkPlace
  dsimp only
  rw [if_neg hinside, hsector, hentry]

theorem nextEntry_sector {t : Nat} (hper : 0 < perSector info)
    (hlast : t % perSector info + 1 ≥ perSector info)
    (hrow : ¬ t / perSector info % info.sectorsPerCluster + 1 ≥ info.sectorsPerCluster)
    (sector : Store) (dir : File) (d : σ) :
    nextEntry ata info sector (walkPlace image info c t) dir d
      = enterSector ata info (walkPlace image info c (t + 1)) dir d := by
  obtain ⟨hsector, hentry⟩ := next_row hper hlast
  obtain ⟨hcluster, hindex⟩ := same_row hrow
  rw [← sectorEnd_iff] at hlast
  unfold nextEntry walkPlace
  dsimp only
  rw [if_pos hlast, if_neg hrow, hsector, hentry, hcluster, hindex]
  rfl

theorem nextEntry_cluster {t : Nat} (reads : ReadsAs ata image) (hper : 0 < perSector info)
    (hspc : 0 < info.sectorsPerCluster) (hlast : t % perSector info + 1 ≥ perSector info)
    (hrow : t / perSector info % info.sectorsPerCluster + 1 ≥ info.sectorsPerCluster)
    (sector : Store) (dir : File) (d : σ) :
    ∃ d', nextEntry ata info sector (walkPlace image info c t) dir d
      = if FAT32_EOC
            ≤ walkTo image info c ((t + 1) / perSector info / info.sectorsPerCluster) then
          (none, dir, d')
        else
          enterSector ata info (walkPlace image info c (t + 1))
            { dir with currentCluster := (walkPlace image info c (t + 1)).cluster } d' := by
  obtain ⟨hsector, hentry⟩ := next_row hper hlast
  obtain ⟨hcluster, hindex⟩ := next_row hspc hrow
  rw [← sectorEnd_iff] at hlast
  obtain ⟨d', hread⟩ := reads.readFatEntry info
    (walkTo image info c (t / perSector info / info.sectorsPerCluster)) d
  rw [← walkTo_succ] at hread
  refine ⟨d', ?_⟩
  unfold nextEntry walkPlace
  dsimp only
  rw [if_pos hlast, if_pos hrow, hread, hsector, hentry, hcluster, hindex]
  rfl

/-- Reading the sector of a place. -/
theorem ReadsAs.enterSector {t : Nat} (reads : ReadsAs ata image) (dir : File) (d : σ) :
    (walkSector image info c (t / perSector info) = none ∧ ∃ d',
      enterSector ata info (walkPlace image info c t) dir d = (none, dir, d')) ∨
    ∃ sector d', walkSector image info c (t / perSector info) = some sector ∧
      enterSector ata info (walkPlace image info c t) dir d
        = (some (sector, walkPlace image info c t), dir, d') := by
  have hlba : walkSector image info c (t / perSector info)
      = image ((walkPlace image info c t).lba info) := rfl
  obtain ⟨d', hread⟩ := reads.readSector ((walkPlace image info c t).lba info) d
  unfold Filesystem.enterSector
  rw [hread, hlba]
  cases image ((walkPlace image info c t).lba info) with
  | none => exact Or.inl ⟨rfl, d', rfl⟩
  | some sector => exact Or.inr ⟨sector, d', rfl, rfl⟩

/-- The step from an entry of the walk goes to the next one, unless the walk ends there. -/
theorem nextEntry_walk (reads : ReadsAs ata image) (hbytes : 0 < info.bytesPerSector)
    (hspc : 0 < info.sectorsPerCluster) {t : Nat} {sector : Store}
    (hsector : walkSector image info c (t / perSector info) = some sector) (dir : File) (d : σ) :
    (WalkEnds image info c t ∧ ∃ dir' d',
      nextEntry ata info sector (walkPlace image info c t) dir d = (none, dir', d')) ∨
    (¬ WalkEnds image info c t ∧ ∃ sector' dir' d',
      walkSector image info c ((t + 1) / perSector info) = some sector' ∧
      nextEntry ata info sector (walkPlace image info c t) dir d
        = (some (sector', walkPlace image info c (t + 1)), dir', d')) := by
  have hper := perSector_pos hbytes
  unfold WalkEnds
  dsimp only
  by_cases hinside : ¬ t % perSector info + 1 ≥ perSector info
  · obtain ⟨hsame, -⟩ := same_row hinside
    rw [hsame, hsector, nextEntry_inside hinside]
    refine Or.inr ⟨?_, sector, dir, d, rfl, rfl⟩
    simp
  have hlast := not_not.mp hinside
  obtain ⟨hnext, -⟩ := next_row hper hlast
  by_cases hrow : t / perSector info % info.sectorsPerCluster + 1 ≥ info.sectorsPerCluster
  · -- the next sector is the first of the next cluster
    obtain ⟨hcluster, -⟩ := next_row hspc hrow
    obtain ⟨d₁, hstep⟩ := nextEntry_cluster (c := c) reads hper hspc hlast hrow sector dir d
    have hpassed : t / perSector info / info.sectorsPerCluster
        < (t + 1) / perSector info / info.sectorsPerCluster := by
      rw [hnext, hcluster]
      exact Nat.lt_succ_self _
    rw [hstep]
    by_cases hend : FAT32_EOC
        ≤ walkTo image info c ((t + 1) / perSector info / info.sectorsPerCluster)
    · rw [if_pos hend]
      exact Or.inl ⟨Or.inl ⟨hpassed, hend⟩, _, _, rfl⟩
    · rw [if_neg hend]
      rcases reads.enterSector (t := t + 1)
        { dir with currentCluster := (walkPlace image info c (t + 1)).cluster } d₁ with
        ⟨hnone, d₂, henter⟩ | ⟨sector', d₂, hsome, henter⟩
      · exact Or.inl ⟨Or.inr hnone, _, _, henter⟩
      · refine Or.inr ⟨?_, sector', _, d₂, hsome, henter⟩
        simp [hend, hsome]
  · -- the next sector is in the same cluster
    obtain ⟨hsame, -⟩ := same_row hrow
    rw [nextEntry_sector hper hlast hrow]
    rcases reads.enterSector (t := t + 1) dir d with ⟨hnone, d₂, henter⟩ | ⟨sector', d₂, hsome, henter⟩
    · exact Or.inl ⟨Or.inr hnone, _, _, henter⟩
    · refine Or.inr ⟨?_, sector', _, d₂, hsome, henter⟩
      rw [hsome, hnext, hsame]
      simp

/-! ### The loop over the entries -/

theorem readdirLoop_mono {fuel : Nat} {sector : Store} {place : Place} {dir : File} {d : σ}
    (h : readdirLoop ata info fuel sector place dir d ≠ none) :
    readdirLoop ata info (fuel + 1) sector place dir d ≠ none := by
  induction fuel generalizing sector place dir d with
  | zero => exact absurd rfl h
  | succ fuel ih =>
      rw [readdirLoop] at h ⊢
      split
      next => simp
      next sector' place' dir' d' hnext =>
        rw [hnext] at h
        dsimp only at h
        split
        · simp
        next hlast =>
          rw [if_neg hlast] at h
          split
          next hdeleted =>
            rw [if_pos hdeleted] at h
            exact ih h
          next hdeleted =>
            rw [if_neg hdeleted] at h
            split
            next hlong =>
              rw [if_pos hlong] at h
              exact ih h
            next => simp

theorem readdirLoop_mono_of_le {fuel more : Nat} (hle : fuel ≤ more) {sector : Store}
    {place : Place} {dir : File} {d : σ} (h : readdirLoop ata info fuel sector place dir d ≠ none) :
    readdirLoop ata info more sector place dir d ≠ none := by
  induction hle with
  | refl => exact h
  | step _ ih => exact readdirLoop_mono ih

/-- The loop returns exactly when the walk ends ahead or shows an entry. -/
theorem readdirLoop_returns_iff (reads : ReadsAs ata image) (hbytes : 0 < info.bytesPerSector)
    (hspc : 0 < info.sectorsPerCluster) {t : Nat} {sector : Store}
    (hsector : walkSector image info c (t / perSector info) = some sector) (dir : File) (d : σ) :
    (∃ fuel, readdirLoop ata info fuel sector (walkPlace image info c t) dir d ≠ none) ↔
      ∃ k ≥ t, WalkEnds image info c k ∨ Shows image info c k := by
  let loop (fuel : Nat) (a : Store × Place × File × σ) :=
    readdirLoop ata info fuel a.1 a.2.1 a.2.2.1 a.2.2.2
  let here (k : Nat) (a : Store × Place × File × σ) : Prop :=
    a.2.1 = walkPlace image info c k ∧
      walkSector image info c (k / perSector info) = some a.1
  refine fuel_returns_iff loop here
    (a := (sector, walkPlace image info c t, dir, d)) ?_ ?_ ?_ ⟨rfl, hsector⟩
  · intro a
    rfl
  · rintro k ⟨sector, place, dir, d⟩ ⟨rfl, hsector⟩ hgo
    rw [not_or] at hgo
    rcases nextEntry_walk reads hbytes hspc hsector
      { dir with position := wadd 32 dir.position 32 } d with
      ⟨hends, -⟩ | ⟨-, sector', dir', d', hsome, hnext⟩
    · exact absurd hends hgo.1
    · have hskipped : kindOf sector' ((walkPlace image info c k).entryIdx * 32) = .skipped := by
        by_contra hkind
        exact hgo.2 ⟨sector', hsome, hkind⟩
      refine ⟨(sector', walkPlace image info c (k + 1), dir', d'), ⟨rfl, hsome⟩, ?_⟩
      intro fuel
      change readdirLoop ata info (fuel + 1) sector _ dir d = readdirLoop ata info fuel sector' _ dir' d'
      rw [readdirLoop_next hnext, hskipped]
  · rintro k ⟨sector, place, dir, d⟩ ⟨rfl, hsector⟩ hstops fuel
    change readdirLoop ata info (fuel + 1) sector _ dir d ≠ none
    rcases nextEntry_walk reads hbytes hspc hsector
      { dir with position := wadd 32 dir.position 32 } d with
      ⟨-, dir', d', hnext⟩ | ⟨hgo, sector', dir', d', hsome, hnext⟩
    · rw [readdirLoop, hnext]
      simp
    · obtain ⟨shown, hshown, hkind⟩ := hstops.resolve_left hgo
      rw [hsome] at hshown
      cases hshown
      rw [readdirLoop_next hnext]
      cases hlook : kindOf sector' ((walkPlace image info c k).entryIdx * 32) with
      | last => simp
      | skipped => exact absurd hlook hkind
      | live dirent => simp

/-! ### The search for the first cluster -/

/-- As long as the sector is not in the cluster, and the chain does not end, the code follows
the chain. -/
theorem seekToEntry_links (reads : ReadsAs ata image) {m : Nat} :
    ∀ (sectorIdx : Nat) (dir : File) (d : σ),
      (∀ j < m, info.sectorsPerCluster ≤ sectorIdx - j * info.sectorsPerCluster) →
      (∀ j < m, walkTo image info dir.currentCluster (j + 1) < FAT32_EOC) →
      ∃ d', ∀ fuel, seekToEntry ata info (fuel + m) sectorIdx dir d
        = seekToEntry ata info fuel (sectorIdx - m * info.sectorsPerCluster)
          { dir with currentCluster := walkTo image info dir.currentCluster m } d' := by
  induction m with
  | zero =>
      intro sectorIdx dir d _ _
      refine ⟨d, fun fuel => ?_⟩
      rw [Nat.zero_mul]
      rfl
  | succ m ih =>
      intro sectorIdx dir d hmore hchain
      obtain ⟨d₁, hentry⟩ := reads.readFatEntry info dir.currentCluster d
      have hfirst : ¬ imageEntry image info dir.currentCluster ≥ FAT32_EOC :=
        not_le.mpr (hchain 0 (Nat.succ_pos m))
      have hpast : sectorIdx ≥ info.sectorsPerCluster := by
        have := hmore 0 (Nat.succ_pos m)
        omega
      have hshift : ∀ j, sectorIdx - info.sectorsPerCluster - j * info.sectorsPerCluster
          = sectorIdx - (j + 1) * info.sectorsPerCluster := by
        intro j
        rw [Nat.sub_sub, Nat.succ_mul, Nat.add_comm]
      obtain ⟨d', hrest⟩ := ih (sectorIdx - info.sectorsPerCluster)
        { dir with currentCluster := imageEntry image info dir.currentCluster } d₁
        (fun j hj => by rw [hshift]; exact hmore (j + 1) (by omega))
        (fun j hj => by
          dsimp only
          rw [← walkTo_shift]
          exact hchain (j + 1) (by omega))
      refine ⟨d', fun fuel => ?_⟩
      rw [← Nat.add_assoc, seekToEntry, if_pos hpast, hentry]
      dsimp only
      rw [if_neg hfirst, hrest, hshift, walkTo_shift]

/-- The code finds the end of the chain before the sector. -/
theorem seekToEntry_ends (reads : ReadsAs ata image) {k sectorIdx : Nat} {dir : File} {d : σ}
    (hmore : ∀ j ≤ k, info.sectorsPerCluster ≤ sectorIdx - j * info.sectorsPerCluster)
    (hchain : ∀ j < k, walkTo image info dir.currentCluster (j + 1) < FAT32_EOC)
    (hend : FAT32_EOC ≤ walkTo image info dir.currentCluster (k + 1)) :
    ∃ dir' d', seekToEntry ata info (1 + k) sectorIdx dir d = some (none, dir', d') := by
  obtain ⟨d₁, hlinks⟩ := seekToEntry_links reads _ _ d (fun j hj => hmore j hj.le) hchain
  obtain ⟨d₂, hentry⟩ := reads.readFatEntry info
    (walkTo image info dir.currentCluster k) d₁
  rw [walkTo_succ] at hend
  rw [hlinks, seekToEntry, if_pos (hmore k (le_refl k))]
  dsimp only
  rw [hentry]
  dsimp only
  rw [if_pos hend]
  exact ⟨_, _, rfl⟩

end Walk

/-! ### The call -/

/-- The sector that a handle is at, counted from the start of its current cluster. -/
def firstSector (info : FsInfo) (dir : File) : Nat := dir.position / info.bytesPerSector

/-- The links that lead to its cluster. -/
def firstLink (info : FsInfo) (dir : File) : Nat := firstSector info dir / info.sectorsPerCluster

/-- The entry that a handle is at. -/
def firstEntry (info : FsInfo) (dir : File) : Nat :=
  firstSector info dir * perSector info + dir.position % info.bytesPerSector / 32

/-- Ahead of the handle the chain ends, a sector cannot be read, or an entry is shown. -/
def SomethingAhead (image : Nat → Option Store) (info : FsInfo) (dir : File) : Prop :=
  (∃ k, FAT32_EOC ≤ walkTo image info dir.currentCluster (k + 1)) ∨
    0 < info.sectorsPerCluster ∧
      ((∃ q ≥ firstSector info dir, walkSector image info dir.currentCluster q = none) ∨
        ∃ t ≥ firstEntry info dir, Shows image info dir.currentCluster t)

section Call

variable {ata : Ata σ} {image : Nat → Option Store} {info : FsInfo} {dir : File}

theorem firstEntry_place (dir : File) (hbytes : 0 < info.bytesPerSector) :
    firstEntry info dir / perSector info = firstSector info dir ∧
      firstEntry info dir % perSector info = dir.position % info.bytesPerSector / 32 := by
  have hper := perSector_pos hbytes
  have hin : dir.position % info.bytesPerSector / 32 < perSector info := by
    have := Nat.mod_lt dir.position hbytes
    unfold perSector
    omega
  unfold firstEntry
  rw [Nat.mul_comm, Nat.mul_add_div hper, Nat.mul_add_mod, Nat.div_eq_of_lt hin,
    Nat.mod_eq_of_lt hin]
  exact ⟨Nat.add_zero _, rfl⟩

/-- Where the handle's sector can be read and its cluster reached, the walk is stopped ahead of
the handle exactly when there is something ahead. -/
theorem stops_iff_somethingAhead (hbytes : 0 < info.bytesPerSector)
    (hspc : 0 < info.sectorsPerCluster) {sector : Store}
    (hsector : walkSector image info dir.currentCluster (firstSector info dir)
      = some sector)
    (hchain : ∀ j < firstLink info dir,
      walkTo image info dir.currentCluster (j + 1) < FAT32_EOC) :
    (∃ t ≥ firstEntry info dir, WalkEnds image info dir.currentCluster t ∨
        Shows image info dir.currentCluster t) ↔ SomethingAhead image info dir := by
  have hper := perSector_pos hbytes
  obtain ⟨hfirst, -⟩ := firstEntry_place dir hbytes
  -- the entry before the first one of sector `q`
  have before : ∀ q > firstSector info dir,
      ∃ t ≥ firstEntry info dir, (t + 1) / perSector info = q ∧ t / perSector info < q := by
    intro q hq
    have hpos : 0 < q * perSector info := Nat.mul_pos (Nat.zero_lt_of_lt hq) hper
    have hle : firstEntry info dir < q * perSector info := by
      rw [← Nat.div_lt_iff_lt_mul hper, hfirst]
      exact hq
    refine ⟨q * perSector info - 1, by omega, ?_, ?_⟩
    · rw [Nat.sub_add_cancel hpos, Nat.mul_div_cancel _ hper]
    · rw [Nat.div_lt_iff_lt_mul hper]
      omega
  constructor
  · rintro ⟨t, ht, (⟨hpassed, hend⟩ | hnone) | shows⟩
    · obtain ⟨k, hk⟩ : ∃ k, (t + 1) / perSector info / info.sectorsPerCluster = k + 1 :=
        ⟨_, (Nat.succ_pred_eq_of_pos (Nat.lt_of_le_of_lt (Nat.zero_le _) hpassed)).symm⟩
      exact Or.inl ⟨k, hk ▸ hend⟩
    · refine Or.inr ⟨hspc, Or.inl ⟨_, ?_, hnone⟩⟩
      rw [← hfirst]
      exact Nat.div_le_div_right (by omega)
    · exact Or.inr ⟨hspc, Or.inr ⟨t, ht, shows⟩⟩
  · rintro (⟨k, hend⟩ | ⟨-, ⟨q, hq, hnone⟩ | ⟨t, ht, shows⟩⟩)
    · have hahead : firstLink info dir < k + 1 := by
        by_contra hbehind
        exact absurd (hchain k (by omega)) (not_lt.mpr hend)
      obtain ⟨t, ht, hnext, hthis⟩ := before ((k + 1) * info.sectorsPerCluster)
        ((Nat.div_lt_iff_lt_mul hspc).mp hahead)
      refine ⟨t, ht, Or.inl (Or.inl ?_)⟩
      rw [hnext, Nat.mul_div_cancel _ hspc]
      exact ⟨(Nat.div_lt_iff_lt_mul hspc).mpr hthis, hend⟩
    · have hlater : firstSector info dir < q := by
        rcases Nat.eq_or_lt_of_le hq with heq | hlt
        · rw [heq, hnone] at hsector
          cases hsector
        · exact hlt
      obtain ⟨t, ht, hnext, -⟩ := before q hlater
      refine ⟨t, ht, Or.inl (Or.inr ?_)⟩
      rw [hnext]
      exact hnone
    · exact ⟨t, ht, Or.inr shows⟩

theorem sub_rows {n w : Nat} : n - n / w * w = n % w := by
  rw [Nat.mul_comm]
  exact Nat.mod_eq_sub_mul_div.symm

theorem rows_left {n w j : Nat} (hj : j < n / w) : w ≤ n - j * w := by
  have hrows := Nat.mul_le_mul_right w (Nat.succ_le_of_lt hj)
  have hall := Nat.div_mul_le_self n w
  rw [Nat.succ_mul] at hrows
  omega

/-- The handle after the search for its cluster. -/
def atFirst (image : Nat → Option Store) (info : FsInfo) (dir : File) : File :=
  { dir with currentCluster := walkTo image info dir.currentCluster (firstLink info dir) }

/-- With enough fuel for the search the code has its first sector, if that can be read. -/
theorem fsReaddir_searched (reads : ReadsAs ata image) (hbytes : 0 < info.bytesPerSector)
    (hspc : 0 < info.sectorsPerCluster) (hmounted : info.mounted = true)
    (hdir : dir.dirent.flags &&& FS_DIRECTORY ≠ 0)
    (hchain : ∀ j < firstLink info dir,
      walkTo image info dir.currentCluster (j + 1) < FAT32_EOC) (d : σ) :
    ∃ d', ∀ fuel, fsReaddir ata info (fuel + 1 + firstLink info dir) dir d
      = match walkSector image info dir.currentCluster (firstSector info dir) with
        | none => some (FS_ERROR, none, atFirst image info dir, d')
        | some sector => readdirLoop ata info (fuel + 1 + firstLink info dir) sector
            (walkPlace image info dir.currentCluster (firstEntry info dir))
            (atFirst image info dir) d' := by
  have hnot : ¬ info.mounted = false := by simp [hmounted]
  obtain ⟨hfirst, hentry⟩ := firstEntry_place dir hbytes
  obtain ⟨d₁, hlinks⟩ := seekToEntry_links (m := firstLink info dir) reads _ _ d
    (fun j hj => rows_left hj) hchain
  have hplace : walkPlace image info dir.currentCluster (firstEntry info dir)
      = ⟨walkTo image info dir.currentCluster (firstLink info dir),
          firstSector info dir % info.sectorsPerCluster,
          dir.position % info.bytesPerSector / 32⟩ := by
    unfold walkPlace
    rw [hfirst, hentry]
    rfl
  have hlba : walkSector image info dir.currentCluster (firstSector info dir)
      = image ((walkPlace image info dir.currentCluster (firstEntry info dir)).lba info) := by
    rw [hplace]
    rfl
  obtain ⟨d₂, hread⟩ := reads.readSector
    ((walkPlace image info dir.currentCluster (firstEntry info dir)).lba info) d₁
  refine ⟨d₂, fun fuel => ?_⟩
  have hseek : seekToEntry ata info (fuel + 1 + firstLink info dir) (firstSector info dir) dir d
      = some (some (firstSector info dir % info.sectorsPerCluster), atFirst image info dir, d₁) := by
    have hthere : firstSector info dir - firstLink info dir * info.sectorsPerCluster
        = firstSector info dir % info.sectorsPerCluster := sub_rows
    rw [hlinks, hthere, seekToEntry, if_neg (Nat.not_le.mpr (Nat.mod_lt _ hspc))]
    rfl
  have hsector : dir.position / info.bytesPerSector = firstSector info dir := rfl
  have hcluster : (atFirst image info dir).currentCluster
      = walkTo image info dir.currentCluster (firstLink info dir) := rfl
  rw [fsReaddir, if_neg hnot, if_neg hdir]
  dsimp only
  rw [hsector, hseek]
  dsimp only
  rw [hcluster, ← hplace, hread, hlba]
  cases image ((walkPlace image info dir.currentCluster (firstEntry info dir)).lba info) with
  | none => rfl
  | some sector => rfl

/-- With less the call is still searching. -/
theorem fsReaddir_searching (reads : ReadsAs ata image) (hmounted : info.mounted = true)
    (hdir : dir.dirent.flags &&& FS_DIRECTORY ≠ 0) {fuel : Nat}
    (hmore : ∀ j < fuel,
      info.sectorsPerCluster ≤ firstSector info dir - j * info.sectorsPerCluster)
    (hchain : ∀ j < fuel, walkTo image info dir.currentCluster (j + 1) < FAT32_EOC) (d : σ) :
    fsReaddir ata info fuel dir d = none := by
  have hnot : ¬ info.mounted = false := by simp [hmounted]
  obtain ⟨d₁, hlinks⟩ := seekToEntry_links reads _ _ d hmore hchain
  have hseek : seekToEntry ata info fuel (dir.position / info.bytesPerSector) dir d = none := by
    have hnone := hlinks 0
    rw [Nat.zero_add] at hnone
    exact hnone
  rw [fsReaddir, if_neg hnot, if_neg hdir]
  dsimp only
  rw [hseek]

/-- The first end of the chain ends the search that comes to it. -/
theorem fsReaddir_ends (reads : ReadsAs ata image) (hmounted : info.mounted = true)
    (hdir : dir.dirent.flags &&& FS_DIRECTORY ≠ 0) {k : Nat}
    (hmore : ∀ j ≤ k, info.sectorsPerCluster ≤ firstSector info dir - j * info.sectorsPerCluster)
    (hchain : ∀ j < k, walkTo image info dir.currentCluster (j + 1) < FAT32_EOC)
    (hend : FAT32_EOC ≤ walkTo image info dir.currentCluster (k + 1)) (d : σ) :
    fsReaddir ata info (1 + k) dir d ≠ none := by
  have hnot : ¬ info.mounted = false := by simp [hmounted]
  have hsector : dir.position / info.bytesPerSector = firstSector info dir := rfl
  obtain ⟨dir', d', hseek⟩ := seekToEntry_ends (d := d) reads hmore hchain hend
  rw [fsReaddir, if_neg hnot, if_neg hdir]
  dsimp only
  rw [hsector, hseek]
  simp

/-- Where the cluster of the handle's sector is reached, everything depends on what is ahead. -/
theorem fsReaddir_reached (reads : ReadsAs ata image) (hbytes : 0 < info.bytesPerSector)
    (hspc : 0 < info.sectorsPerCluster) (hmounted : info.mounted = true)
    (hdir : dir.dirent.flags &&& FS_DIRECTORY ≠ 0)
    (hchain : ∀ j < firstLink info dir,
      walkTo image info dir.currentCluster (j + 1) < FAT32_EOC) (d : σ) :
    (∃ fuel, fsReaddir ata info fuel dir d ≠ none) ↔ SomethingAhead image info dir := by
  obtain ⟨hfirst, -⟩ := firstEntry_place dir hbytes
  obtain ⟨d₁, hrun⟩ := fsReaddir_searched reads hbytes hspc hmounted hdir hchain d
  cases hsector : walkSector image info dir.currentCluster (firstSector info dir) with
  | none =>
      refine iff_of_true ⟨0 + 1 + firstLink info dir, ?_⟩
        (Or.inr ⟨hspc, Or.inl ⟨_, le_refl _, hsector⟩⟩)
      rw [hrun, hsector]
      simp
  | some sector =>
      rw [← stops_iff_somethingAhead hbytes hspc hsector hchain,
        ← readdirLoop_returns_iff reads hbytes hspc (by rw [hfirst]; exact hsector)
          (atFirst image info dir) d₁]
      simp only [hsector] at hrun
      constructor
      · rintro ⟨fuel, hreturns⟩
        rcases Nat.lt_or_ge (firstLink info dir) fuel with henough | hless
        · obtain ⟨more, rfl⟩ := Nat.exists_eq_add_of_le henough
          have hfuel : (firstLink info dir).succ + more = more + 1 + firstLink info dir := by omega
          rw [hfuel, hrun] at hreturns
          exact ⟨_, hreturns⟩
        · have hnone := @fsReaddir_searching _ _ _ _ _ reads hmounted hdir fuel
            (fun j hj => rows_left (hj.trans_le hless)) (fun j hj => hchain j (hj.trans_le hless)) d
          exact absurd hnone hreturns
      · rintro ⟨fuel, hreturns⟩
        refine ⟨fuel + 1 + firstLink info dir, ?_⟩
        rw [hrun]
        exact readdirLoop_mono_of_le (by omega) hreturns

/-- **When `fs_readdir` returns.** Whatever is on the disk, the call returns exactly when
ahead of the handle the chain ends, a sector cannot be read, or an entry is not skipped. -/
theorem fs_readdir_returns_iff (reads : ReadsAs ata image) (hbytes : 0 < info.bytesPerSector)
    (hmounted : info.mounted = true) (dir : File) (hdir : dir.dirent.flags &&& FS_DIRECTORY ≠ 0)
    (d : σ) :
    (∃ fuel, fsReaddir ata info fuel dir d ≠ none) ↔ SomethingAhead image info dir := by
  by_cases hreached : 0 < info.sectorsPerCluster ∧
      ∀ j < firstLink info dir, walkTo image info dir.currentCluster (j + 1) < FAT32_EOC
  · exact fsReaddir_reached reads hbytes hreached.1 hmounted hdir hreached.2 d
  by_cases hends : ∃ k, FAT32_EOC ≤ walkTo image info dir.currentCluster (k + 1)
  · -- the search itself finds the first end of the chain
    refine iff_of_true ?_ (Or.inl hends)
    have hfound := Nat.find_spec hends
    have hbefore : ∀ j < Nat.find hends,
        walkTo image info dir.currentCluster (j + 1) < FAT32_EOC := by
      intro j hj
      exact not_le.mp (Nat.find_min hends hj)
    have hmore : ∀ j ≤ Nat.find hends,
        info.sectorsPerCluster ≤ firstSector info dir - j * info.sectorsPerCluster := by
      intro j hj
      rcases Nat.eq_zero_or_pos info.sectorsPerCluster with hzero | hspc
      · rw [hzero]
        exact Nat.zero_le _
      · apply rows_left
        apply lt_of_le_of_lt hj
        by_contra hlate
        exact hreached ⟨hspc, fun i hi => hbefore i (hi.trans_le (not_lt.mp hlate))⟩
    exact ⟨_, fsReaddir_ends reads hmounted hdir hmore hbefore hfound d⟩
  · -- a chain without end, and clusters without sectors
    push Not at hends
    have hzero : info.sectorsPerCluster = 0 := by
      by_contra hspc
      exact hreached ⟨Nat.pos_of_ne_zero hspc, fun j _ => hends j⟩
    refine iff_of_false ?_ ?_
    · rintro ⟨fuel, hreturns⟩
      apply hreturns
      apply fsReaddir_searching reads hmounted hdir
      · intro j _
        rw [hzero]
        exact Nat.zero_le _
      · intro j _
        exact hends j
    · rintro (⟨k, hend⟩ | ⟨hspc, -⟩)
      · exact absurd (hends k) (not_lt.mpr hend)
      · rw [hzero] at hspc
        exact absurd hspc (lt_irrefl 0)

end Call

/-! ### A directory that has no end -/

/-- A disk that holds an image, and cannot be written. -/
def imageDisk (image : Nat → Option Store) : Ata Unit where
  readSector lba d := (image lba, d)
  writeSector _ _ d := (false, d)

theorem imageDisk_reads (image : Nat → Option Store) : ReadsAs (imageDisk image) image :=
  fun _ _ => rfl

def rootHandle : File := opened smallVolume ⟨[0x2F], 0, FS_DIRECTORY, 2⟩

theorem fs_readdir_returns_iff_empty :
    (∃ fuel, fsReaddir (imageDisk fun _ => some fun _ => 0) smallVolume fuel rootHandle () ≠ none) ↔
      SomethingAhead (fun _ => some fun _ => 0) smallVolume rootHandle :=
  fs_readdir_returns_iff (imageDisk_reads _) (by decide) rfl rootHandle (by decide) ()

/-- Every entry of the FAT is 2, and every entry of a directory is deleted. -/
def cyclicImage (lba : Nat) : Option Store :=
  if lba = 1 then some fun k => if k % 4 = 0 then 2 else 0 else some fun _ => 0xE5

theorem walkTo_cyclic (k : Nat) : walkTo cyclicImage smallVolume 2 k = 2 := by
  induction k with
  | zero => rfl
  | succ k ih =>
      rw [walkTo_succ, ih]
      decide

/-- The root directory is a cluster of deleted entries that is its own successor. -/
theorem fs_readdir_does_not_return :
    ¬ ∃ fuel, fsReaddir (imageDisk cyclicImage) smallVolume fuel rootHandle () ≠ none := by
  have hchain : ∀ k, walkTo cyclicImage smallVolume rootHandle.currentCluster (k + 1) < FAT32_EOC := by
    intro k
    have hsame : walkTo cyclicImage smallVolume rootHandle.currentCluster (k + 1) = 2 :=
      walkTo_cyclic (k + 1)
    rw [hsame]
    decide
  have hsector : ∀ q, walkSector cyclicImage smallVolume rootHandle.currentCluster q
      = some fun _ => 0xE5 := by
    intro q
    have hcluster : walkTo cyclicImage smallVolume rootHandle.currentCluster
        (q / smallVolume.sectorsPerCluster) = 2 := walkTo_cyclic _
    have hindex : q % smallVolume.sectorsPerCluster = 0 := Nat.mod_one q
    unfold walkSector
    rw [hcluster, hindex]
    rfl
  have hnothing : ¬ SomethingAhead cyclicImage smallVolume rootHandle := by
    rintro (⟨k, hend⟩ | ⟨-, ⟨q, -, hnone⟩ | ⟨t, -, sector, hsome, hkind⟩⟩)
    · exact absurd (hchain k) (not_lt.mpr hend)
    · rw [hsector] at hnone
      cases hnone
    · rw [hsector] at hsome
      cases hsome
      apply hkind
      rfl
  rw [fsReaddir_reached (imageDisk_reads cyclicImage) (by decide) (by decide) rfl (by decide)
    (fun j _ => hchain j) ()]
  exact hnothing

end Curnel.Filesystem
