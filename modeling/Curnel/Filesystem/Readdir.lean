/-
fs_readdir gives the entries of a directory one by one.

The handle keeps the offset of the next entry in the whole directory and the cluster that
the last call has reached. At the end of a sector the next one is read into the same buffer
before the entry that has just been passed is looked at.
-/

import Curnel.Filesystem.Directory

namespace Curnel.Filesystem

open Lib Bytes Word

variable {σ : Type}

/-! ### The code -/

/-- A place in a directory: the cluster, the sector in it and the entry in that. -/
structure Place where
  cluster : Nat
  sectorIdx : Nat
  entryIdx : Nat
deriving DecidableEq

/-- The LBA of the sector of a place. -/
def Place.lba (info : FsInfo) (place : Place) : Nat :=
  wadd 32 (fat32ClusterToLba info place.cluster) place.sectorIdx

/-- The loop of `fs_readdir` that goes to the cluster of `sectorIdx`, from `dir`'s current one.
The result is `none` where the directory ends before it. -/
def seekToEntry (ata : Ata σ) (info : FsInfo) :
    Nat → Nat → File → σ → Option (Option Nat × File × σ)
  | 0, _, _, _ => none
  | fuel + 1, sectorIdx, dir, d =>
      if sectorIdx ≥ info.sectorsPerCluster then
        let (next, d) := fat32ReadFatEntry ata info dir.currentCluster d
        if next ≥ FAT32_EOC then some (none, dir, d)
        else
          seekToEntry ata info fuel (sectorIdx - info.sectorsPerCluster)
            { dir with currentCluster := next } d
      else some (some sectorIdx, dir, d)

/-- The step of `fs_readdir` to the next entry, with the reading of the next sector where the
old one ends. `none` stands for an error. -/
def nextEntry (ata : Ata σ) (info : FsInfo) (sector : Store) (place : Place) (dir : File) (d : σ) :
    Option (Store × Place) × File × σ :=
  let place := { place with entryIdx := place.entryIdx + 1 }
  if place.entryIdx * 32 ≥ info.bytesPerSector then
    let place := { place with sectorIdx := place.sectorIdx + 1, entryIdx := 0 }
    if place.sectorIdx ≥ info.sectorsPerCluster then
      let (next, d) := fat32ReadFatEntry ata info place.cluster d
      if next ≥ FAT32_EOC then (none, dir, d)
      else
        let place := { place with cluster := next, sectorIdx := 0 }
        let dir := { dir with currentCluster := next }
        match ata.readSector (place.lba info) d with
        | (none, d) => (none, dir, d)
        | (some sector, d) => (some (sector, place), dir, d)
    else
      match ata.readSector (place.lba info) d with
      | (none, d) => (none, dir, d)
      | (some sector, d) => (some (sector, place), dir, d)
  else (some (sector, place), dir, d)

/-- The loop of `fs_readdir` over the entries: the result, and what is stored in the caller's
`dirent`. The entry of the place is looked at in the sector of the next one. -/
def readdirLoop (ata : Ata σ) (info : FsInfo) :
    Nat → Store → Place → File → σ → Option (Int × Option Dirent × File × σ)
  | 0, _, _, _, _ => none
  | fuel + 1, sector, place, dir, d =>
      let entry := place.entryIdx * 32
      let dir := { dir with position := wadd 32 dir.position 32 }
      match nextEntry ata info sector place dir d with
      | (none, dir, d) => some (FS_ERROR, none, dir, d)
      | (some (sector, place), dir, d) =>
          if sector entry = 0 then some (FS_ERROR, none, dir, d)
          else if sector entry = 0xE5 then readdirLoop ata info fuel sector place dir d
          else if sector (entry + 11) = 0x0F then readdirLoop ata info fuel sector place dir d
          else some (FS_SUCCESS, some (entryDirent sector entry), dir, d)

def fsReaddir (ata : Ata σ) (info : FsInfo) (fuel : Nat) (dir : File) (d : σ) :
    Option (Int × Option Dirent × File × σ) :=
  if info.mounted = false then some (FS_NOT_MOUNTED, none, dir, d)
  else if dir.dirent.flags &&& FS_DIRECTORY = 0 then some (FS_ERROR, none, dir, d)
  else
    let sectorIdx := dir.position / info.bytesPerSector
    let entryIdx := dir.position % info.bytesPerSector / 32
    match seekToEntry ata info fuel sectorIdx dir d with
    | none => none
    | some (none, dir, d) => some (FS_ERROR, none, dir, d)
    | some (some sectorIdx, dir, d) =>
        let place : Place := ⟨dir.currentCluster, sectorIdx, entryIdx⟩
        match ata.readSector (place.lba info) d with
        | (none, d) => some (FS_ERROR, none, dir, d)
        | (some sector, d) => readdirLoop ata info fuel sector place dir d

def fsOpendir (ata : Ata σ) (info : FsInfo) (path : List UInt8) (dir : File) (d : σ) :
    Int × File × σ :=
  match fsOpen ata info path dir d with
  | (result, dir, d) =>
      if result = FS_SUCCESS ∧ dir.dirent.flags &&& FS_DIRECTORY = 0 then (FS_ERROR, dir, d)
      else (result, dir, d)

/-! ### What a directory holds -/

/-- What the 32 bytes of a directory entry say. -/
inductive Kind where
  /-- The end marker: there are no entries from here on. -/
  | last
  /-- A deleted entry, or a part of a long name. -/
  | skipped
  | live (dirent : Dirent)
deriving DecidableEq

/-- The entry at `a`. -/
def kindOf (sector : Store) (a : Nat) : Kind :=
  if sector a = 0 then .last
  else if sector a = 0xE5 then .skipped
  else if sector (a + 11) = 0x0F then .skipped
  else .live (entryDirent sector a)

def Kind.dirent : Kind → Option Dirent
  | .live dirent => some dirent
  | _ => none

/-- A directory: the chain of clusters from `first` to the end-of-chain mark. -/
structure IsDirectory (info : FsInfo) (m : Store) (first : Nat) (cs : List Nat) : Prop where
  follows : Follows info m first cs
  nonempty : cs ≠ []
  ends : FAT32_EOC ≤ fat info m (cs.getLast nonempty)

/-- Entry `t` of a directory. -/
def entryKind (info : FsInfo) (m : Store) (cs : List Nat) (t : Nat) : Kind :=
  kindOf (fun k => m (location info cs k)) (32 * t)

def entryCount (info : FsInfo) (cs : List Nat) : Nat := cs.length * info.sectorsPerCluster * 16

/-- The live entries from `t` on that precede the first end marker, in the order on disk. -/
def listingFrom (info : FsInfo) (m : Store) (cs : List Nat) (t : Nat) : List Dirent :=
  (((List.range' t (entryCount info cs - t)).map (entryKind info m cs)).takeWhile
    (· ≠ .last)).filterMap Kind.dirent

/-- What a directory lists. -/
def listing (info : FsInfo) (m : Store) (cs : List Nat) : List Dirent := listingFrom info m cs 0

variable {ata : Ata σ} {disk : σ → Store} {info : FsInfo} {m : Store} {first : Nat}
  {cs : List Nat} {t : Nat}

theorem kindOf_congr {s s' : Store} {a b : Nat} (h : ∀ k < 32, s (a + k) = s' (b + k)) :
    kindOf s a = kindOf s' b := by
  have hbyte : s a = s' b := h 0 (by decide)
  unfold kindOf
  rw [hbyte, h 11 (by decide), (entry_congr h).2]

/-- The first entry decides what is listed after it. -/
theorem listingFrom_eq (ht : t < entryCount info cs) :
    listingFrom info m cs t = match entryKind info m cs t with
      | .last => []
      | .skipped => listingFrom info m cs (t + 1)
      | .live dirent => dirent :: listingFrom info m cs (t + 1) := by
  have hcount : entryCount info cs - t = entryCount info cs - (t + 1) + 1 := by omega
  rw [listingFrom, hcount, List.range'_succ, List.map_cons]
  cases hkind : entryKind info m cs t with
  | last => rw [List.takeWhile_cons_of_neg (by simp)]; rfl
  | skipped => rw [List.takeWhile_cons_of_pos (by simp)]; rfl
  | live dirent => rw [List.takeWhile_cons_of_pos (by simp)]; rfl

theorem listingFrom_end (ht : entryCount info cs ≤ t) : listingFrom info m cs t = [] := by
  rw [listingFrom, Nat.sub_eq_zero_of_le ht]
  rfl

/-! ### Sectors of a directory -/

/-- `sector` holds the bytes of sector `n` of the directory. -/
def HoldsSector (info : FsInfo) (m : Store) (cs : List Nat) (n : Nat) (sector : Store) : Prop :=
  ∀ k < 512, sector k = m (location info cs (512 * n + k))

theorem HoldsSector.kindOf {sector : Store} (holds : HoldsSector info m cs (t / 16) sector) :
    kindOf sector (32 * (t % 16)) = entryKind info m cs t := by
  refine kindOf_congr fun k hk => ?_
  have hplace : 512 * (t / 16) + (32 * (t % 16) + k) = 32 * t + k := by omega
  rw [holds _ (by omega), hplace]

/-- Where sector `n` of a directory is. -/
theorem location_sector (sectored : Sectored info) {n k c : Nat}
    (hc : cs[n / info.sectorsPerCluster]? = some c) (hk : k < 512) :
    location info cs (512 * n + k) = dataAddr info c + (512 * (n % info.sectorsPerCluster) + k) := by
  have hpos := sectored.sectorsPerCluster
  have hdiv : (512 * n + k) / info.bytesPerCluster = n / info.sectorsPerCluster := by
    rw [sectored.bytesPerCluster, ← Nat.div_div_eq_div_mul, Nat.mul_add_div (by decide),
      Nat.div_eq_of_lt hk, Nat.add_zero]
  have hmod : (512 * n + k) % info.bytesPerCluster = 512 * (n % info.sectorsPerCluster) + k := by
    have hsplit : 512 * n + k
        = info.bytesPerCluster * (n / info.sectorsPerCluster)
          + (512 * (n % info.sectorsPerCluster) + k) := by
      have := Nat.div_add_mod n info.sectorsPerCluster
      rw [sectored.bytesPerCluster, Nat.mul_assoc]
      omega
    rw [hsplit, Nat.mul_add_mod]
    refine Nat.mod_eq_of_lt ?_
    have := Nat.mod_lt n hpos
    rw [sectored.bytesPerCluster]
    omega
  obtain ⟨hlt, hget⟩ := List.getElem?_eq_some_iff.mp hc
  rw [location, hdiv, hmod, List.getD_eq_getElem _ _ hlt, hget]

/-- Reading sector `n` of a directory. -/
theorem Follows.readSector (reliable : Reliable ata disk) (sectored : Sectored info) {d : σ}
    (follows : Follows info (disk d) first cs) {n c : Nat}
    (hc : cs[n / info.sectorsPerCluster]? = some c) :
    ∃ sector d', ata.readSector
        (wadd 32 (fat32ClusterToLba info c) (n % info.sectorsPerCluster)) d = (some sector, d') ∧
      HoldsSector info (disk d) cs n sector ∧ disk d' = disk d := by
  have hreadable : Readable info c := by
    obtain ⟨hlt, hget⟩ := List.getElem?_eq_some_iff.mp hc
    exact hget ▸ follows.readable _ (List.getElem_mem hlt)
  have hin : 512 * (n % info.sectorsPerCluster) < info.bytesPerCluster := by
    have := Nat.mod_lt n sectored.sectorsPerCluster
    rw [sectored.bytesPerCluster]
    omega
  obtain ⟨hlba, hlt, haddr⟩ := hreadable.data_sector sectored hin
  rw [Nat.mul_div_cancel_left _ (by decide)] at hlba hlt haddr
  obtain ⟨sector, d', hread, hsector, hdisk⟩ := reliable.read _ d hlt
  refine ⟨sector, d', by rw [hlba, hread], fun k hk => ?_, hdisk⟩
  rw [hsector k hk, location_sector sectored hc hk]
  refine congrArg _ ?_
  omega

/-- The code is at entry `t` of the directory, with its sector in the buffer. -/
structure At (info : FsInfo) (m : Store) (cs : List Nat) (t : Nat) (sector : Store)
    (place : Place) : Prop where
  cluster : cs[t / 16 / info.sectorsPerCluster]? = some place.cluster
  sectorIdx : place.sectorIdx = t / 16 % info.sectorsPerCluster
  entryIdx : place.entryIdx = t % 16
  sector : HoldsSector info m cs (t / 16) sector

theorem At.lt (sectored : Sectored info) {sector : Store} {place : Place}
    (here : At info m cs t sector place) : t < entryCount info cs := by
  have hlt := (List.getElem?_eq_some_iff.mp here.cluster).1
  have := (Nat.div_lt_iff_lt_mul sectored.sectorsPerCluster).mp hlt
  unfold entryCount
  omega

theorem next_row {n w : Nat} (hpos : 0 < w) (hlast : n % w + 1 ≥ w) :
    (n + 1) / w = n / w + 1 ∧ (n + 1) % w = 0 := by
  have hlt := Nat.mod_lt n hpos
  have hsplit := Nat.div_add_mod n w
  have hnext : n + 1 = w * (n / w + 1) := by
    rw [Nat.mul_succ]
    omega
  rw [hnext]
  exact ⟨Nat.mul_div_cancel_left _ hpos, Nat.mul_mod_right _ _⟩

theorem same_row {n w : Nat} (hin : ¬ n % w + 1 ≥ w) :
    (n + 1) / w = n / w ∧ (n + 1) % w = n % w + 1 := by
  have hsplit := Nat.div_add_mod n w
  have hnext : n + 1 = w * (n / w) + (n % w + 1) := by omega
  have hpos : 0 < w := by omega
  rw [hnext, Nat.mul_add_div hpos, Nat.div_eq_of_lt (by omega : n % w + 1 < w), Nat.add_zero,
    Nat.mul_add_mod, Nat.mod_eq_of_lt (by omega : n % w + 1 < w)]
  exact ⟨rfl, rfl⟩

/-- The step to the next entry: there is one, and its sector is in the buffer, or the directory
ends here. -/
theorem nextEntry_cases (reliable : Reliable ata disk) (sectored : Sectored info) {d : σ}
    (directory : IsDirectory info (disk d) first cs) {sector : Store} {place : Place}
    (here : At info (disk d) cs t sector place) (dir : File)
    (hdir : dir.currentCluster = place.cluster) :
    (∃ sector' place' d', nextEntry ata info sector place dir d
        = (some (sector', place'), { dir with currentCluster := place'.cluster }, d') ∧
      At info (disk d) cs (t + 1) sector' place' ∧ disk d' = disk d) ∨
    t + 1 = entryCount info cs ∧
      ∃ d', nextEntry ata info sector place dir d = (none, dir, d') ∧ disk d' = disk d := by
  have hpos := sectored.sectorsPerCluster
  have hsame : { dir with currentCluster := place.cluster } = dir := by rw [← hdir]
  rw [nextEntry, sectored.bytesPerSector]
  by_cases hinside : t % 16 = 15
  · have hsector : (t + 1) / 16 = t / 16 + 1 := by omega
    have hover : (place.entryIdx + 1) * 32 ≥ 512 := by
      rw [here.entryIdx, hinside]
    rw [if_pos hover]
    dsimp only
    rw [here.sectorIdx]
    by_cases hlast : t / 16 % info.sectorsPerCluster + 1 ≥ info.sectorsPerCluster
    · -- The next sector is the first of the next cluster, if there is one.
      obtain ⟨hnumber, hzero⟩ := next_row hpos hlast
      rw [if_pos hlast]
      obtain ⟨hlt, hget⟩ := List.getElem?_eq_some_iff.mp here.cluster
      obtain ⟨d₁, hread, hdisk₁⟩ :=
        (directory.follows.readable _ (List.getElem_mem hlt)).readFatEntry reliable sectored d
      rw [hget] at hread
      rw [hread]
      dsimp only
      by_cases hmore : t / 16 / info.sectorsPerCluster + 1 < cs.length
      · obtain ⟨hlink, hgo⟩ := directory.follows.next hmore
        rw [hget] at hlink hgo
        rw [if_neg hgo]
        have hcluster : cs[(t + 1) / 16 / info.sectorsPerCluster]?
            = some (fat info (disk d) place.cluster) := by
          rw [hsector, hnumber, List.getElem?_eq_getElem hmore, hlink]
        have hsectorIdx : (t + 1) / 16 % info.sectorsPerCluster = 0 := by rw [hsector, hzero]
        rw [← hdisk₁] at directory
        obtain ⟨sector', d₂, hsectorRead, holds, hdisk₂⟩ :=
          directory.follows.readSector reliable sectored hcluster
        rw [hsectorIdx] at hsectorRead
        rw [Place.lba]
        dsimp only
        rw [hsectorRead]
        refine Or.inl ⟨sector', _, d₂, rfl, ⟨hcluster, ?_, ?_, ?_⟩, hdisk₂.trans hdisk₁⟩
        · exact hsectorIdx.symm
        · change 0 = (t + 1) % 16
          omega
        · rwa [hdisk₁] at holds
      · have hlength : cs.length = t / 16 / info.sectorsPerCluster + 1 :=
          Nat.le_antisymm (Nat.not_lt.mp hmore) hlt
        have hfinal : place.cluster = cs.getLast directory.nonempty := by
          rw [List.getLast_eq_getElem, ← hget]
          simp only [hlength, Nat.add_sub_cancel]
        rw [if_pos (hfinal ▸ directory.ends)]
        refine Or.inr ⟨?_, d₁, rfl, hdisk₁⟩
        have hrow := Nat.div_add_mod (t / 16 + 1) info.sectorsPerCluster
        rw [hzero, hnumber, ← hlength, Nat.add_zero, Nat.mul_comm] at hrow
        rw [entryCount, hrow]
        omega
    · obtain ⟨hnumber, hstep⟩ := same_row hlast
      rw [if_neg hlast]
      have hcluster : cs[(t + 1) / 16 / info.sectorsPerCluster]? = some place.cluster := by
        rw [hsector, hnumber]
        exact here.cluster
      have hsectorIdx : (t + 1) / 16 % info.sectorsPerCluster
          = t / 16 % info.sectorsPerCluster + 1 := by rw [hsector, hstep]
      obtain ⟨sector', d₁, hsectorRead, holds, hdisk₁⟩ :=
        directory.follows.readSector reliable sectored hcluster
      rw [hsectorIdx] at hsectorRead
      rw [Place.lba]
      dsimp only
      rw [hsectorRead]
      refine Or.inl ⟨sector', ⟨place.cluster, t / 16 % info.sectorsPerCluster + 1, 0⟩, d₁, ?_,
        ⟨hcluster, ?_, ?_, holds⟩, hdisk₁⟩
      · rw [hsame]
      · exact hsectorIdx.symm
      · change 0 = (t + 1) % 16
        omega
  · have hsector : (t + 1) / 16 = t / 16 := by omega
    have hnot : ¬ (place.entryIdx + 1) * 32 ≥ 512 := by
      rw [here.entryIdx]
      omega
    rw [if_neg hnot]
    refine Or.inl ⟨sector, { place with entryIdx := place.entryIdx + 1 }, d, ?_, ?_, rfl⟩
    · rw [hsame]
    · refine ⟨?_, ?_, ?_, ?_⟩
      · rw [hsector]
        exact here.cluster
      · rw [hsector]
        exact here.sectorIdx
      · have := here.entryIdx
        dsimp only
        omega
      · rw [hsector]
        exact here.sector

/-! ### Where the calls go wrong -/

/-- No end marker precedes entry `t`. -/
def Reached (info : FsInfo) (m : Store) (cs : List Nat) (t : Nat) : Prop :=
  ∀ j < t, entryKind info m cs j ≠ .last

/-- Up to the end marker, the last entry of a sector is of the same kind as the last one of
the next sector, and no live entry is the last of the first cluster or comes after it. -/
structure Undisturbed (info : FsInfo) (m : Store) (cs : List Nat) : Prop where
  sectorEnd : ∀ t, Reached info m cs t → t % 16 = 15 → t + 16 < entryCount info cs →
    entryKind info m cs (t + 16) = entryKind info m cs t
  firstCluster : ∀ t, Reached info m cs t → t < entryCount info cs →
    info.sectorsPerCluster * 16 ≤ t + 1 → ∀ dirent, entryKind info m cs t ≠ .live dirent

theorem Reached.succ (reached : Reached info m cs t) (h : entryKind info m cs t ≠ .last) :
    Reached info m cs (t + 1) := by
  intro j hj
  rcases Nat.lt_succ_iff_lt_or_eq.mp hj with hlt | rfl
  · exact reached j hlt
  · exact h

/-- The entry that is looked at in the place of entry `t`: the buffer may hold the next sector
by then. -/
def lookedAt (t : Nat) : Nat := if t % 16 = 15 then t + 16 else t

theorem At.looks {sector : Store} {place : Place} (next : At info m cs (t + 1) sector place) :
    kindOf sector (32 * (t % 16)) = entryKind info m cs (lookedAt t) := by
  have holds := next.sector
  rw [lookedAt]
  by_cases hinside : t % 16 = 15
  · have hplace : (t + 16) / 16 = (t + 1) / 16 ∧ (t + 16) % 16 = t % 16 := by omega
    rw [← hplace.1] at holds
    rw [if_pos hinside, ← hplace.2, holds.kindOf]
  · have hplace : (t + 1) / 16 = t / 16 := by omega
    rw [hplace] at holds
    rw [if_neg hinside, holds.kindOf]

theorem Undisturbed.lookedAt (undisturbed : Undisturbed info m cs)
    (reached : Reached info m cs t) (hnext : t + 1 < entryCount info cs) :
    entryKind info m cs (lookedAt t) = entryKind info m cs t := by
  rw [Filesystem.lookedAt]
  by_cases hinside : t % 16 = 15
  · rw [if_pos hinside]
    refine undisturbed.sectorEnd t reached hinside ?_
    unfold entryCount at hnext ⊢
    omega
  · rw [if_neg hinside]

/-- What is listed from entry `t` on if it is not live. -/
theorem listingFrom_skip (ht : t < entryCount info cs)
    (hkind : entryKind info m cs t = .skipped) :
    listingFrom info m cs t = listingFrom info m cs (t + 1) := by
  rw [listingFrom_eq ht, hkind]

theorem Undisturbed.listing_last (undisturbed : Undisturbed info m cs)
    (reached : Reached info m cs t) (hne : cs ≠ []) (hend : t + 1 = entryCount info cs) :
    listingFrom info m cs t = [] := by
  have ht : t < entryCount info cs := by omega
  have hcluster : info.sectorsPerCluster * 16 ≤ t + 1 := by
    have := Nat.mul_le_mul_right info.sectorsPerCluster (List.length_pos_iff.mpr hne)
    unfold entryCount at hend
    omega
  cases hkind : entryKind info m cs t with
  | last => rw [listingFrom_eq ht, hkind]
  | skipped => rw [listingFrom_skip ht hkind, listingFrom_end (Nat.le_of_eq hend.symm)]
  | live dirent => exact absurd hkind (undisturbed.firstCluster t reached ht hcluster dirent)

/-- What a round of the loop does depends on the kind of the entry it looks at. -/
theorem readdirLoop_next {fuel : Nat} {sector sector' : Store} {place place' : Place}
    {dir dir' : File} {d d' : σ}
    (hnext : nextEntry ata info sector place { dir with position := wadd 32 dir.position 32 } d
      = (some (sector', place'), dir', d')) :
    readdirLoop ata info (fuel + 1) sector place dir d
      = match kindOf sector' (place.entryIdx * 32) with
        | .last => some (FS_ERROR, none, dir', d')
        | .skipped => readdirLoop ata info fuel sector' place' dir' d'
        | .live dirent => some (FS_SUCCESS, some dirent, dir', d') := by
  rw [readdirLoop, hnext, kindOf]
  dsimp only
  split
  · rfl
  split
  · rfl
  split
  · rfl
  · rfl

theorem next_position {p : Nat} (hposition : p = wmul 32 t 32) :
    wadd 32 p 32 = wmul 32 (t + 1) 32 := by
  rw [hposition, wadd, wmul, wmul, Nat.add_mod_mod, Nat.succ_mul, Nat.add_comm]

/-- Positions in the first cluster fit in 32 bits. -/
theorem entry_position (sectored : Sectored info) (hcluster : info.bytesPerCluster < 2 ^ 32)
    (hin : t < info.sectorsPerCluster * 16) : wmul 32 t 32 = 32 * t := by
  rw [sectored.bytesPerCluster] at hcluster
  rw [wmul_of_lt (by omega), Nat.mul_comm]

theorem At.cluster_eq {sector : Store} {place : Place} (here : At info m cs t sector place)
    (directory : IsDirectory info m first cs) (hin : t < info.sectorsPerCluster * 16) :
    place.cluster = first := by
  have hget := here.cluster
  rw [Nat.div_eq_of_lt (by omega : t / 16 < info.sectorsPerCluster),
    ← List.head?_eq_getElem?] at hget
  exact directory.follows.head _ hget

/-- The loop over the entries from `t` on: it gives the next live entry, or there is none. -/
theorem readdirLoop_spec (reliable : Reliable ata disk) (sectored : Sectored info)
    (hcluster : info.bytesPerCluster < 2 ^ 32) (directory : IsDirectory info m first cs)
    (undisturbed : Undisturbed info m cs) (reached : Reached info m cs t) {sector : Store}
    {place : Place} (here : At info m cs t sector place) {dir : File}
    (hdir : dir.currentCluster = place.cluster) (hposition : dir.position = wmul 32 t 32) {d : σ}
    (hdisk : disk d = m) {fuel : Nat} (hfuel : entryCount info cs - t ≤ fuel) :
    (∃ i dirent d', readdirLoop ata info fuel sector place dir d
        = some (FS_SUCCESS, some dirent,
          { dir with position := 32 * (i + 1), currentCluster := first }, d') ∧
      disk d' = m ∧ i + 1 < info.sectorsPerCluster * 16 ∧ Reached info m cs (i + 1) ∧
      listingFrom info m cs t = dirent :: listingFrom info m cs (i + 1)) ∨
    (∃ dir' d', readdirLoop ata info fuel sector place dir d
        = some (FS_ERROR, none, dir', d') ∧ disk d' = m ∧ listingFrom info m cs t = []) := by
  induction fuel generalizing t sector place dir d with
  | zero =>
      have := here.lt sectored
      omega
  | succ fuel ih =>
      have ht := here.lt sectored
      have hentry : place.entryIdx * 32 = 32 * (t % 16) := by rw [here.entryIdx, Nat.mul_comm]
      have hmoved := next_position hposition
      have hstep := nextEntry_cases (d := d) reliable sectored (hdisk ▸ directory) (hdisk ▸ here)
        { dir with position := wadd 32 dir.position 32 } hdir
      rw [hdisk] at hstep
      rcases hstep with ⟨sector', place', d₁, hnext, next, hdisk₁⟩ | ⟨hend, d₁, hnext, hdisk₁⟩
      · rw [readdirLoop_next hnext, hentry, next.looks,
          undisturbed.lookedAt reached (next.lt sectored)]
        cases hkind : entryKind info m cs t with
        | last => exact Or.inr ⟨_, d₁, rfl, hdisk₁, by rw [listingFrom_eq ht, hkind]⟩
        | skipped =>
            rw [listingFrom_skip ht hkind]
            exact ih (reached.succ (by rw [hkind]; decide)) next rfl hmoved hdisk₁ (by omega)
        | live dirent =>
            have hin : t + 1 < info.sectorsPerCluster * 16 := by
              by_contra hout
              exact undisturbed.firstCluster t reached ht (by omega) dirent hkind
            refine Or.inl ⟨t, dirent, d₁, ?_, hdisk₁, hin, reached.succ (by rw [hkind]; simp),
              by rw [listingFrom_eq ht, hkind]⟩
            dsimp only
            rw [hmoved, entry_position sectored hcluster hin, next.cluster_eq directory hin]
      · rw [readdirLoop, hnext]
        exact Or.inr ⟨_, d₁, rfl, hdisk₁, undisturbed.listing_last reached directory.nonempty hend⟩

/-! ### Calls and runs -/

/-- The calls of `fs_readdir` until one fails: what they have given. -/
def readEntries (ata : Ata σ) (info : FsInfo) (fuel : Nat) :
    Nat → File → σ → Option (List Dirent × File × σ)
  | 0, _, _ => none
  | n + 1, dir, d =>
      match fsReaddir ata info fuel dir d with
      | none => none
      | some (result, dirent, dir, d) =>
          if result = FS_SUCCESS then
            (readEntries ata info fuel n dir d).map fun out => (dirent.toList ++ out.1, out.2)
          else some ([], dir, d)

/-- The handle of a directory of which the entries before entry `t` of its first cluster have
been read. -/
structure ReadUpTo (info : FsInfo) (first t : Nat) (dir : File) : Prop where
  flags : dir.dirent.flags &&& FS_DIRECTORY ≠ 0
  position : dir.position = 32 * t
  cluster : dir.currentCluster = first
  inFirst : t < info.sectorsPerCluster * 16

theorem ReadUpTo.position_eq (sectored : Sectored info) (hcluster : info.bytesPerCluster < 2 ^ 32)
    {dir : File} (upTo : ReadUpTo info first t dir) : dir.position = wmul 32 t 32 := by
  rw [upTo.position, entry_position sectored hcluster upTo.inFirst]

/-- A call goes to the entry behind those that have been read. -/
theorem fsReaddir_enters (reliable : Reliable ata disk) (sectored : Sectored info)
    (directory : IsDirectory info m first cs) {dir : File} (upTo : ReadUpTo info first t dir)
    {d : σ} (hdisk : disk d = m) (fuel : Nat) :
    ∃ sector d', fsReaddir ata info (fuel + 1) dir d
        = readdirLoop ata info (fuel + 1) sector ⟨dir.currentCluster, t / 16, t % 16⟩ dir d' ∧
      At info m cs t sector ⟨dir.currentCluster, t / 16, t % 16⟩ ∧ disk d' = m := by
  subst hdisk
  have hmounted := sectored.not_unmounted
  have hplace : dir.position / info.bytesPerSector = t / 16 ∧
      dir.position % info.bytesPerSector / 32 = t % 16 := by
    rw [upTo.position, sectored.bytesPerSector]
    omega
  have hrow : t / 16 < info.sectorsPerCluster := by
    have := upTo.inFirst
    omega
  have hfirst : cs[t / 16 / info.sectorsPerCluster]? = some dir.currentCluster := by
    obtain ⟨c, rest, rfl⟩ := List.exists_cons_of_ne_nil directory.nonempty
    rw [Nat.div_eq_of_lt hrow, upTo.cluster, ← directory.follows.head c rfl]
    rfl
  have hseek : seekToEntry ata info (fuel + 1) (t / 16) dir d = some (some (t / 16), dir, d) := by
    rw [seekToEntry, if_neg (Nat.not_le.mpr hrow)]
  obtain ⟨sector, d₁, hread, holds, hdisk₁⟩ :=
    directory.follows.readSector reliable sectored hfirst
  rw [Nat.mod_eq_of_lt hrow] at hread
  refine ⟨sector, d₁, ?_, ⟨hfirst, (Nat.mod_eq_of_lt hrow).symm, rfl, holds⟩, hdisk₁⟩
  rw [fsReaddir, if_neg hmounted, if_neg upTo.flags, hplace.1, hplace.2]
  dsimp only
  rw [hseek]
  dsimp only
  rw [Place.lba]
  dsimp only
  rw [hread]

/-- A call gives the next live entry, or there is none. -/
theorem fsReaddir_spec (reliable : Reliable ata disk) (sectored : Sectored info)
    (hcluster : info.bytesPerCluster < 2 ^ 32) (directory : IsDirectory info m first cs)
    (undisturbed : Undisturbed info m cs) (reached : Reached info m cs t) {dir : File}
    (upTo : ReadUpTo info first t dir) {d : σ} (hdisk : disk d = m) {fuel : Nat}
    (hfuel : entryCount info cs < fuel) :
    (∃ i dirent dir' d', fsReaddir ata info fuel dir d
        = some (FS_SUCCESS, some dirent, dir', d') ∧
      disk d' = m ∧ ReadUpTo info first (i + 1) dir' ∧ Reached info m cs (i + 1) ∧
      listingFrom info m cs t = dirent :: listingFrom info m cs (i + 1)) ∨
    (∃ dir' d', fsReaddir ata info fuel dir d = some (FS_ERROR, none, dir', d') ∧ disk d' = m ∧
      listingFrom info m cs t = []) := by
  obtain ⟨fuel, rfl⟩ : ∃ n, fuel = n + 1 := ⟨fuel - 1, by omega⟩
  obtain ⟨sector, d₁, henter, here, hdisk₁⟩ :=
    fsReaddir_enters reliable sectored directory upTo hdisk fuel
  have hword := upTo.position_eq sectored hcluster
  rw [henter]
  have henough : entryCount info cs - t ≤ fuel + 1 := by omega
  rcases readdirLoop_spec reliable sectored hcluster directory undisturbed reached here rfl hword
    hdisk₁ henough with ⟨i, dirent, d', hrun, hdisk', hin, hreached, hlisting⟩ | hfail
  · exact Or.inl ⟨i, dirent, _, d', hrun, hdisk', ⟨upTo.flags, rfl, rfl, hin⟩, hreached, hlisting⟩
  · exact Or.inr hfail

theorem readEntries_spec (reliable : Reliable ata disk) (sectored : Sectored info)
    (hcluster : info.bytesPerCluster < 2 ^ 32) (directory : IsDirectory info m first cs)
    (undisturbed : Undisturbed info m cs) (reached : Reached info m cs t) {dir : File}
    (upTo : ReadUpTo info first t dir) {d : σ} (hdisk : disk d = m) {fuel n : Nat}
    (hfuel : entryCount info cs < fuel) (hn : (listingFrom info m cs t).length < n) :
    ∃ dir' d', readEntries ata info fuel n dir d = some (listingFrom info m cs t, dir', d') ∧
      disk d' = m := by
  induction n generalizing t dir d with
  | zero => omega
  | succ n ih =>
      rw [readEntries]
      rcases fsReaddir_spec reliable sectored hcluster directory undisturbed reached upTo hdisk
        hfuel with ⟨i, dirent, dir₁, d₁, hcall, hdisk₁, upTo₁, reached₁, hlisting⟩ |
        ⟨dir₁, d₁, hcall, hdisk₁, hlisting⟩
      · have hless : (listingFrom info m cs (i + 1)).length < n := by
          rw [hlisting, List.length_cons] at hn
          omega
        obtain ⟨dir', d', hrest, hdisk'⟩ := ih reached₁ upTo₁ hdisk₁ hless
        refine ⟨dir', d', ?_, hdisk'⟩
        rw [hcall, hlisting]
        dsimp only
        rw [if_pos rfl, hrest]
        rfl
      · refine ⟨dir₁, d₁, ?_, hdisk₁⟩
        rw [hcall, hlisting]
        rfl

/-- Opening the root directory and reading it to its end gives these entries, if there is
enough fuel. -/
def Lists (ata : Ata σ) (info : FsInfo) (handle : File) (d : σ) (dirents : List Dirent) : Prop :=
  ∃ dir d₁, fsOpendir ata info [0x2F] handle d = (FS_SUCCESS, dir, d₁) ∧
    ∃ enough, ∀ fuel ≥ enough, ∃ dir' d',
      readEntries ata info fuel fuel dir d₁ = some (dirents, dir', d')

theorem directory_flag : FS_DIRECTORY &&& FS_DIRECTORY ≠ 0 := by decide

theorem fsOpendir_root (sectored : Sectored info) (handle : File) (d : σ) :
    fsOpendir ata info [0x2F] handle d
      = (FS_SUCCESS, opened info ⟨[0x2F], 0, FS_DIRECTORY, info.rootCluster⟩, d) := by
  have hmounted := sectored.not_unmounted
  rw [fsOpendir, fsOpen, if_neg hmounted, if_pos rfl]
  dsimp only
  rw [if_neg fun h => absurd h.2 directory_flag]

theorem opened_upTo (sectored : Sectored info) : ReadUpTo info info.rootCluster 0
    (opened info ⟨[0x2F], 0, FS_DIRECTORY, info.rootCluster⟩) :=
  ⟨directory_flag, rfl, rfl, Nat.mul_pos sectored.sectorsPerCluster (by decide)⟩

theorem Undisturbed.lists (reliable : Reliable ata disk) (sectored : Sectored info)
    (hcluster : info.bytesPerCluster < 2 ^ 32) (handle : File) {d : σ}
    (directory : IsDirectory info (disk d) info.rootCluster cs)
    (undisturbed : Undisturbed info (disk d) cs) :
    Lists ata info handle d (listing info (disk d) cs) := by
  refine ⟨_, _, fsOpendir_root sectored handle d, entryCount info cs + 1, fun fuel hfuel => ?_⟩
  have hlength : (listingFrom info (disk d) cs 0).length ≤ entryCount info cs := by
    refine (List.length_filterMap_le _ _).trans ((List.takeWhile_prefix _).length_le.trans ?_)
    rw [List.length_map, List.length_range']
    exact Nat.sub_le _ _
  have henough : (listingFrom info (disk d) cs 0).length < fuel := by omega
  obtain ⟨dir', d', hrun, -⟩ := readEntries_spec reliable sectored hcluster directory undisturbed
    (fun j hj => absurd hj (Nat.not_lt_zero j)) (opened_upTo sectored) rfl hfuel henough
  exact ⟨dir', d', hrun⟩

/-! ### Directories that fill a sector -/

/-- A directory without deleted entries and long names: its entries are all different, and end
at the first end marker. -/
structure Tidy (info : FsInfo) (m : Store) (cs : List Nat) : Prop where
  plain : ∀ t < entryCount info cs, entryKind info m cs t ≠ .skipped
  ends : ∀ s t, s ≤ t → t < entryCount info cs → entryKind info m cs s = .last →
    entryKind info m cs t = .last
  differ : ∀ s t, s < t → t < entryCount info cs → ∀ dirent,
    entryKind info m cs s = .live dirent → entryKind info m cs t ≠ .live dirent

theorem IsDirectory.sixteen_le (sectored : Sectored info)
    (directory : IsDirectory info m first cs) : 16 ≤ entryCount info cs := by
  have hlength := List.length_pos_iff.mpr directory.nonempty
  have := Nat.mul_pos hlength sectored.sectorsPerCluster
  unfold entryCount
  omega

/-- In a tidy directory the calls go wrong at its first sixteenth entry, or not at all. -/
theorem Tidy.undisturbed (tidy : Tidy info m cs) (sectored : Sectored info)
    (hlast : entryKind info m cs 15 = .last) : Undisturbed info m cs := by
  have early : ∀ t, Reached info m cs t → t ≤ 15 := by
    intro t reached
    by_contra hlater
    exact reached 15 (by omega) hlast
  refine ⟨fun t reached hinside hin => ?_, fun t reached ht hrow dirent hlive => ?_⟩
  · have ht : t = 15 := by
      have := early t reached
      omega
    subst ht
    rw [hlast]
    exact tidy.ends 15 31 (by decide) hin hlast
  · have ht : t = 15 := by
      have := early t reached
      have := sectored.sectorsPerCluster
      omega
    rw [ht, hlast] at hlive
    cases hlive

/-- A call where the entry that is looked at first is not skipped. -/
theorem fsReaddir_looks (reliable : Reliable ata disk) (sectored : Sectored info)
    (hcluster : info.bytesPerCluster < 2 ^ 32) (directory : IsDirectory info m first cs)
    {dir : File} (upTo : ReadUpTo info first t dir)
    (hkind : t + 1 < entryCount info cs → entryKind info m cs (lookedAt t) ≠ .skipped) {d : σ}
    (hdisk : disk d = m) (fuel : Nat) :
    (∃ dirent dir' d', fsReaddir ata info (fuel + 1) dir d
        = some (FS_SUCCESS, some dirent, dir', d') ∧ disk d' = m ∧ t + 1 < entryCount info cs ∧
      entryKind info m cs (lookedAt t) = .live dirent ∧
      (t + 1 < info.sectorsPerCluster * 16 → ReadUpTo info first (t + 1) dir')) ∨
    (∃ dir' d', fsReaddir ata info (fuel + 1) dir d = some (FS_ERROR, none, dir', d')) := by
  obtain ⟨sector, d₁, henter, here, hdisk₁⟩ :=
    fsReaddir_enters reliable sectored directory upTo hdisk fuel
  have hentry : t % 16 * 32 = 32 * (t % 16) := Nat.mul_comm _ _
  have hstep := nextEntry_cases (d := d₁) reliable sectored (hdisk₁ ▸ directory) (hdisk₁ ▸ here)
    { dir with position := wadd 32 dir.position 32 } rfl
  rw [hdisk₁] at hstep
  rw [henter]
  rcases hstep with ⟨sector', place', d₂, hnext, next, hdisk₂⟩ | ⟨-, d₂, hnext, -⟩
  · have hmore := next.lt sectored
    rw [readdirLoop_next hnext]
    dsimp only
    rw [hentry, next.looks]
    cases hlooked : entryKind info m cs (lookedAt t) with
    | last => exact Or.inr ⟨_, d₂, rfl⟩
    | skipped => exact absurd hlooked (hkind hmore)
    | live dirent =>
        refine Or.inl ⟨dirent, _, d₂, rfl, hdisk₂, hmore, rfl, fun hin => ⟨upTo.flags, ?_, ?_, hin⟩⟩
        · dsimp only
          rw [next_position (upTo.position_eq sectored hcluster),
            entry_position sectored hcluster hin]
        · exact next.cluster_eq directory hin
  · rw [readdirLoop, hnext]
    exact Or.inr ⟨_, d₂, rfl⟩

/-- Where the first sector is full of entries, the calls do not give the sixteenth. -/
theorem Tidy.not_listed (reliable : Reliable ata disk) (sectored : Sectored info)
    (hcluster : info.bytesPerCluster < 2 ^ 32) (directory : IsDirectory info m first cs)
    (tidy : Tidy info m cs) (hfull : entryKind info m cs 15 ≠ .last) {n fuel : Nat}
    (ht : t ≤ 15) {dir : File} (upTo : ReadUpTo info first t dir) {d : σ} (hdisk : disk d = m)
    (dir' : File) (d' : σ) :
    readEntries ata info (fuel + 1) n dir d ≠ some (listingFrom info m cs t, dir', d') := by
  have hcount := directory.sixteen_le sectored
  induction n generalizing t dir d with
  | zero =>
      intro hrun
      cases hrun
  | succ n ih =>
      intro hrun
      have hlt : t < entryCount info cs := by omega
      have hplain : t + 1 < entryCount info cs →
          entryKind info m cs (lookedAt t) ≠ .skipped := by
        intro hnext
        refine tidy.plain _ ?_
        unfold lookedAt entryCount at *
        split <;> omega
      rw [readEntries] at hrun
      cases hkind : entryKind info m cs t with
      | last => exact hfull (tidy.ends t 15 ht (by omega) hkind)
      | skipped => exact tidy.plain t hlt hkind
      | live y =>
          rw [listingFrom_eq hlt, hkind] at hrun
          rcases fsReaddir_looks reliable sectored hcluster directory upTo hplain hdisk fuel with
            ⟨x, dir₁, d₁, hcall, hdisk₁, hnext, hlooked, upTo₁⟩ | ⟨dir₁, d₁, hcall⟩
          · rw [hcall] at hrun
            dsimp only at hrun
            rw [if_pos rfl] at hrun
            obtain ⟨out, hrest, hout⟩ := Option.map_eq_some_iff.mp hrun
            have hlist : x = y ∧ out.1 = listingFrom info m cs (t + 1) :=
              List.cons.inj (congrArg Prod.fst hout)
            have hleft : out.2 = (dir', d') := (Prod.mk.inj hout).2
            rcases Nat.lt_or_eq_of_le ht with hinside | rfl
            · have hrow : t + 1 < info.sectorsPerCluster * 16 := by
                have := sectored.sectorsPerCluster
                omega
              have hpair : out = (listingFrom info m cs (t + 1), dir', d') :=
                Prod.ext hlist.2 hleft
              exact ih (by omega) (upTo₁ hrow) hdisk₁ (hpair ▸ hrest)
            · -- The last entry of the second sector stands in for that of the first.
              have hsecond : 31 < entryCount info cs := by
                unfold entryCount at hnext ⊢
                omega
              rw [hlist.1] at hlooked
              exact tidy.differ 15 31 (by decide) hsecond y hkind hlooked
          · rw [hcall] at hrun
            cases hrun

theorem Tidy.last_of_lists (reliable : Reliable ata disk) (sectored : Sectored info)
    (hcluster : info.bytesPerCluster < 2 ^ 32) {handle : File} {d : σ}
    (directory : IsDirectory info (disk d) info.rootCluster cs) (tidy : Tidy info (disk d) cs)
    (lists : Lists ata info handle d (listing info (disk d) cs)) :
    entryKind info (disk d) cs 15 = .last := by
  by_contra hfull
  obtain ⟨dir, d₁, hopen, enough, hrun⟩ := lists
  rw [fsOpendir_root sectored] at hopen
  cases hopen
  obtain ⟨dir', d', hlisted⟩ := hrun (enough + 1) (Nat.le_succ enough)
  exact tidy.not_listed reliable sectored hcluster directory hfull (Nat.zero_le 15)
    (opened_upTo sectored) rfl dir' d' hlisted

/-- The root directory is listed as it is on disk if every entry up to the end marker reads like
the one that is looked at in its place, and the live ones are in the first cluster. Where all
entries are live and different that is also necessary. -/
theorem readdir_lists (reliable : Reliable ata disk) (sectored : Sectored info)
    (hcluster : info.bytesPerCluster < 2 ^ 32) (handle : File) (d : σ)
    (directory : IsDirectory info (disk d) info.rootCluster cs) :
    (Undisturbed info (disk d) cs → Lists ata info handle d (listing info (disk d) cs)) ∧
      (Tidy info (disk d) cs → Lists ata info handle d (listing info (disk d) cs) →
        Undisturbed info (disk d) cs) :=
  ⟨Undisturbed.lists reliable sectored hcluster handle directory, fun tidy lists =>
    tidy.undisturbed sectored (tidy.last_of_lists reliable sectored hcluster directory lists)⟩

/-! ### Two root directories -/

/-- A root directory of one sector, with `n` empty files. -/
def rootSector (n : Nat) : Store := fun a =>
  if a < 1024 then 0xFF
  else if a % 32 = 0 ∧ a < 1024 + 32 * n then UInt8.ofNat (0x41 + (a - 1024) / 32)
  else 0

theorem rootSector_directory {n : Nat} (hend : FAT32_EOC ≤ fat smallVolume (rootSector n) 2) :
    IsDirectory smallVolume (rootSector n) 2 [2] := by
  refine ⟨⟨fun c hc => ?_, List.isChain_singleton 2, fun c hc => ?_⟩, List.cons_ne_nil 2 [], hend⟩
  · cases hc
    rfl
  · rw [List.mem_singleton] at hc
    exact hc ▸ Valid.readable smallVolume_volume ⟨Nat.le_refl 2, by decide⟩

/-- One file is listed. -/
theorem readdir_lists_one :
    Lists memoryDisk smallVolume emptyFile (rootSector 1) [⟨[0x41], 0, FS_FILE, 0⟩] := by
  have directory := rootSector_directory (n := 1) (by decide)
  have undisturbed : Undisturbed smallVolume (id (rootSector 1)) [2] := by
    refine ⟨fun t _ _ hin => ?_, fun t _ ht hrow dirent => ?_⟩
    · change t + 16 < 16 at hin
      omega
    · change t < 16 at ht
      change 16 ≤ t + 1 at hrow
      have hlast : t = 15 := by omega
      have hkind : entryKind smallVolume (rootSector 1) [2] 15 = .last := by decide
      rw [hlast]
      change entryKind smallVolume (rootSector 1) [2] 15 ≠ _
      rw [hkind]
      exact Kind.noConfusion
  have hlisting : listing smallVolume (rootSector 1) [2] = [⟨[0x41], 0, FS_FILE, 0⟩] := by
    decide +kernel
  have hlists := (readdir_lists memoryDisk_reliable smallVolume_volume.sectored (by decide)
    emptyFile (rootSector 1) directory).1 undisturbed
  exact hlisting ▸ hlists

/-- Of sixteen files the last is not. -/
theorem readdir_misses_last :
    IsDirectory smallVolume (rootSector 16) 2 [2] ∧
    (listing smallVolume (rootSector 16) [2]).length = 16 ∧
    ¬ Lists memoryDisk smallVolume emptyFile (rootSector 16)
      (listing smallVolume (rootSector 16) [2]) := by
  have directory := rootSector_directory (n := 16) (by decide)
  have hkind : ∀ t < 16, entryKind smallVolume (rootSector 16) [2] t
      = .live ⟨[UInt8.ofNat (0x41 + t)], 0, FS_FILE, 0⟩ := by
    decide +kernel
  have hlength : (listing smallVolume (rootSector 16) [2]).length = 16 := by decide +kernel
  have tidy : Tidy smallVolume (id (rootSector 16)) [2] := by
    refine ⟨fun t ht => ?_, fun s t hle ht hlast => ?_, fun s t hlt ht dirent hs heq => ?_⟩
    · exact (hkind t ht).symm ▸ Kind.noConfusion
    · have hs := (hkind s (lt_of_le_of_lt hle ht)).symm.trans hlast
      cases hs
    · have hsame := (hkind s (hlt.trans ht)).symm.trans (hs.trans (heq.symm.trans (hkind t ht)))
      have hbyte : ∀ s < 16, ∀ t < 16, s < t →
          Kind.live ⟨[UInt8.ofNat (0x41 + s)], 0, FS_FILE, 0⟩
            ≠ .live ⟨[UInt8.ofNat (0x41 + t)], 0, FS_FILE, 0⟩ := by decide
      exact hbyte s (hlt.trans ht) t ht hlt hsame
  refine ⟨directory, hlength, fun lists => ?_⟩
  have hlast := tidy.last_of_lists memoryDisk_reliable smallVolume_volume.sectored (by decide)
    directory lists
  cases (hkind 15 (by decide)).symm.trans hlast

end Curnel.Filesystem
