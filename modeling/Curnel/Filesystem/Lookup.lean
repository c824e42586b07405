/-
fs_open and fs_readdir on the entries of the root directory.

`fs_open` scans the first cluster, sector by sector: an end marker ends the scan of its own
sector only. `fs_readdir` goes on to the end marker and stops there. Where the calls of
`fs_readdir` list the directory as it is, the two agree on a name unless it is that of a stale
entry, one behind the end marker that the scan comes upon in a later sector.
-/

import Curnel.Filesystem.Readdir

namespace Curnel.Filesystem

open Lib Bytes Word

variable {σ : Type}

/-! ### What the two look for -/

/-- The live ones of the `n` entries from `t` on, up to the first end marker. -/
def liveEntries (info : FsInfo) (m : Store) (cs : List Nat) (t n : Nat) : List Dirent :=
  (((List.range' t n).map (entryKind info m cs)).takeWhile (· ≠ .last)).filterMap Kind.dirent

/-- What `fs_open` scans in sector `i` of a directory. -/
def sectorEntries (info : FsInfo) (m : Store) (cs : List Nat) (i : Nat) : List Dirent :=
  liveEntries info m cs (16 * i) 16

/-- The scan of `fs_open` comes upon an entry of the name in a sector behind that of the end
marker. -/
def Stale (info : FsInfo) (m : Store) (cs : List Nat) (name : List UInt8) : Prop :=
  ∃ i < info.sectorsPerCluster, ¬ Reached info m cs (16 * i) ∧
    ∃ dirent ∈ sectorEntries info m cs i, dirent.name = name

/-- Opening a name succeeds exactly when the root directory, opened and read to its end, gives
an entry of that name, and then with the data of the first such entry. -/
def OpenAgrees (ata : Ata σ) (info : FsInfo) (handle : File) (d : σ) (name : List UInt8) : Prop :=
  ∃ dirents, Lists ata info handle d dirents ∧
    match dirents.find? (fun dirent => dirent.name = name) with
    | some dirent =>
        ∃ d', fsOpen ata info (0x2F :: name) handle d = (FS_SUCCESS, opened info dirent, d')
    | none => (fsOpen ata info (0x2F :: name) handle d).1 ≠ FS_SUCCESS

variable {ata : Ata σ} {disk : σ → Store} {info : FsInfo} {m : Store} {first : Nat}
  {cs : List Nat} {name : List UInt8}

/-! ### Live entries -/

theorem liveEntries_succ (t n : Nat) :
    liveEntries info m cs t (n + 1) = match entryKind info m cs t with
      | .last => []
      | .skipped => liveEntries info m cs (t + 1) n
      | .live dirent => dirent :: liveEntries info m cs (t + 1) n := by
  rw [liveEntries, List.range'_succ, List.map_cons]
  cases hkind : entryKind info m cs t with
  | last => rw [List.takeWhile_cons_of_neg (by simp)]; rfl
  | skipped => rw [List.takeWhile_cons_of_pos (by simp)]; rfl
  | live dirent => rw [List.takeWhile_cons_of_pos (by simp)]; rfl

/-- Entries without an end marker among them are followed by the rest. -/
theorem liveEntries_append {t n : Nat} (k : Nat)
    (hgo : ∀ j, t ≤ j → j < t + n → entryKind info m cs j ≠ .last) :
    liveEntries info m cs t (n + k) = liveEntries info m cs t n ++ liveEntries info m cs (t + n) k := by
  induction n generalizing t with
  | zero =>
      rw [Nat.zero_add]
      rfl
  | succ n ih =>
      have hsize : n + 1 + k = n + k + 1 := by omega
      have hrest := ih (t := t + 1) fun j hlow hhigh => hgo j (by omega) (by omega)
      have hplace : t + 1 + n = t + (n + 1) := by omega
      have hfirst := hgo t (le_refl t) (by omega)
      rw [hsize, liveEntries_succ, liveEntries_succ, hrest, hplace]
      cases hkind : entryKind info m cs t with
      | last => exact absurd hkind hfirst
      | skipped => rfl
      | live dirent => rfl

/-- What is behind an end marker does not count. -/
theorem liveEntries_stop {t n : Nat} (k : Nat)
    (hstop : ∃ j, t ≤ j ∧ j < t + n ∧ entryKind info m cs j = .last) :
    liveEntries info m cs t (n + k) = liveEntries info m cs t n := by
  induction n generalizing t with
  | zero =>
      obtain ⟨j, hlow, hhigh, -⟩ := hstop
      omega
  | succ n ih =>
      have hsize : n + 1 + k = n + k + 1 := by omega
      rw [hsize, liveEntries_succ, liveEntries_succ]
      cases hkind : entryKind info m cs t with
      | last => rfl
      | _ =>
          have hrest := ih (t := t + 1) (by
            obtain ⟨j, hlow, hhigh, hlast⟩ := hstop
            rcases Nat.eq_or_lt_of_le hlow with rfl | hlt
            · rw [hkind] at hlast
              cases hlast
            · exact ⟨j, hlt, by omega, hlast⟩)
          simp only [hrest]

theorem mem_liveEntries {t n k : Nat} {dirent : Dirent} (hk : k < n)
    (hgo : ∀ j, t ≤ j → j < t + k → entryKind info m cs j ≠ .last)
    (hlive : entryKind info m cs (t + k) = .live dirent) :
    dirent ∈ liveEntries info m cs t n := by
  obtain ⟨more, rfl⟩ := Nat.exists_eq_add_of_lt hk
  rw [Nat.add_assoc, liveEntries_append _ hgo, liveEntries_succ, hlive]
  exact List.mem_append_right _ List.mem_cons_self

/-! ### The scan of the first cluster -/

/-- The loop of `fs_open` in a sector, by the kinds of its entries. -/
theorem findInSector_kind (sector : Store) (n j : Nat) :
    findInSector name sector (n + 1) j = match kindOf sector j with
      | .last => none
      | .skipped => findInSector name sector n (j + 32)
      | .live dirent =>
          if dirent.name = name then some dirent else findInSector name sector n (j + 32) := by
  rw [findInSector, kindOf]
  split
  · rfl
  split
  · rfl
  split
  · rfl
  · rfl

theorem kindOf_clusterSector (sectored : Sectored info) (directory : IsDirectory info m first cs)
    {i e : Nat} (hi : i < info.sectorsPerCluster) (he : e < 16) :
    kindOf (clusterSector info m first i) (32 * e) = entryKind info m cs (16 * i + e) := by
  obtain ⟨c, rest, rfl⟩ := List.exists_cons_of_ne_nil directory.nonempty
  have hc : (c :: rest)[i / info.sectorsPerCluster]? = some first := by
    rw [Nat.div_eq_of_lt hi, ← directory.follows.head c rfl]
    rfl
  refine kindOf_congr fun k hk => ?_
  have hplace : 32 * (16 * i + e) + k = 512 * i + (32 * e + k) := by omega
  rw [hplace, location_sector sectored hc (by omega), Nat.mod_eq_of_lt hi, clusterSector]
  exact congrArg m (by omega)

/-- The scan of one sector finds the first of its entries with the name. -/
theorem findInSector_eq (sectored : Sectored info) (directory : IsDirectory info m first cs)
    {i n e : Nat} (hi : i < info.sectorsPerCluster) (he : e + n ≤ 16) :
    findInSector name (clusterSector info m first i) n (32 * e)
      = (liveEntries info m cs (16 * i + e) n).find? fun dirent => dirent.name = name := by
  induction n generalizing e with
  | zero => rfl
  | succ n ih =>
      have hkind := kindOf_clusterSector sectored directory hi (by omega : e < 16)
      have hoffset : 32 * e + 32 = 32 * (e + 1) := by omega
      rw [findInSector_kind, hkind, hoffset, ih (by omega), liveEntries_succ]
      cases entryKind info m cs (16 * i + e) with
      | last => rfl
      | skipped => rfl
      | live dirent =>
          dsimp only
          rw [List.find?_cons]
          split
          next hname => simp [hname]
          next hname => simp [hname, Nat.add_assoc]

/-- The scan finds the first entry of the name in the sectors of the first cluster. -/
theorem lookupFrom_eq (sectored : Sectored info)
    (directory : IsDirectory info m info.rootCluster cs) {n i : Nat}
    (hin : i + n ≤ info.sectorsPerCluster) :
    lookupFrom info m name n i
      = ((List.range' i n).flatMap (sectorEntries info m cs)).find?
          fun dirent => dirent.name = name := by
  induction n generalizing i with
  | zero => rfl
  | succ n ih =>
      have hsector : findInSector name (clusterSector info m info.rootCluster i) 16 0
          = (sectorEntries info m cs i).find? fun dirent => dirent.name = name :=
        findInSector_eq sectored directory (e := 0) (by omega) (le_refl 16)
      rw [lookupFrom, hsector, ih (by omega), List.range'_succ, List.flatMap_cons,
        List.find?_append]
      cases (sectorEntries info m cs i).find? fun dirent => dirent.name = name with
      | none => rfl
      | some dirent => rfl

/-- The sectors of the root cluster, read from the disk, hold what the directory does. -/
theorem scanRoot_directory (name : List UInt8) (reliable : Reliable ata disk)
    (sectored : Sectored info) (directory : IsDirectory info m info.rootCluster cs) {n i : Nat}
    (hin : i + n = info.sectorsPerCluster) {d : σ} (hdisk : disk d = m) :
    ∃ d', scanRoot ata info name n i d
      = (match lookupFrom info m name n i with
        | some dirent => .ok dirent
        | none => .error FS_NOT_FOUND, d') := by
  induction n generalizing i d with
  | zero => exact ⟨d, rfl⟩
  | succ n ih =>
      have hi : i < info.sectorsPerCluster := by omega
      obtain ⟨c, rest, rfl⟩ := List.exists_cons_of_ne_nil directory.nonempty
      have hc : (c :: rest)[i / info.sectorsPerCluster]? = some info.rootCluster := by
        rw [Nat.div_eq_of_lt hi, ← directory.follows.head c rfl]
        rfl
      subst hdisk
      obtain ⟨sector, d₁, hread, holds, hdisk₁⟩ :=
        directory.follows.readSector reliable sectored hc
      rw [Nat.mod_eq_of_lt hi] at hread
      have hsame : findInSector name sector 16 0
          = findInSector name (clusterSector info (disk d) info.rootCluster i) 16 0 := by
        refine findInSector_congr (fun k hk => ?_) (le_refl 512)
        rw [holds k hk, location_sector sectored hc hk, Nat.mod_eq_of_lt hi, clusterSector]
        exact congrArg (disk d) (by omega)
      rw [scanRoot, lookupFrom, hread, sectored.bytesPerSector]
      dsimp only
      rw [hsame]
      cases findInSector name (clusterSector info (disk d) info.rootCluster i) 16 0 with
      | some dirent => exact ⟨d₁, rfl⟩
      | none => exact ih (by omega : i + 1 + n = info.sectorsPerCluster) hdisk₁

/-- `fs_open` of a name in the root directory. -/
theorem fsOpen_directory (reliable : Reliable ata disk) (sectored : Sectored info) {d : σ}
    (directory : IsDirectory info (disk d) info.rootCluster cs) (hname : name ≠ [])
    (hslash : 0x2F ∉ name) (file : File) :
    ∃ d', fsOpen ata info (0x2F :: name) file d
      = match ((List.range' 0 info.sectorsPerCluster).flatMap
            (sectorEntries info (disk d) cs)).find? (fun dirent => dirent.name = name) with
        | some dirent => (FS_SUCCESS, opened info dirent, d')
        | none => (FS_NOT_FOUND, file, d') := by
  have hmounted := sectored.not_unmounted
  have hpath : (0x2F :: name : List UInt8) ≠ [0x2F] := by
    intro h
    exact hname (List.cons.inj h).2
  have hstrip : (0x2F :: name : List UInt8).dropWhile (· = 0x2F) = name := by
    obtain ⟨c, rest, rfl⟩ := List.exists_cons_of_ne_nil hname
    have hc : c ≠ 0x2F := fun h => hslash (h ▸ List.mem_cons_self)
    simp [hc]
  obtain ⟨d', hscan⟩ := scanRoot_directory name reliable sectored directory
    (Nat.zero_add info.sectorsPerCluster) rfl
  refine ⟨d', ?_⟩
  rw [fsOpen, if_neg hmounted, if_neg hpath, hstrip, hscan,
    lookupFrom_eq sectored directory (by omega)]
  cases ((List.range' 0 info.sectorsPerCluster).flatMap
    (sectorEntries info (disk d) cs)).find? fun dirent => dirent.name = name with
  | some dirent => rfl
  | none => rfl

/-! ### The two together -/

/-- From the end of the first cluster on, an undisturbed directory lists nothing. -/
theorem Undisturbed.listing_past (undisturbed : Undisturbed info m cs) {t : Nat}
    (reached : Reached info m cs t) (hpast : info.sectorsPerCluster * 16 ≤ t) :
    listingFrom info m cs t = [] := by
  obtain ⟨left, hleft⟩ : ∃ left, entryCount info cs - t = left := ⟨_, rfl⟩
  induction left generalizing t with
  | zero => exact listingFrom_end (by omega)
  | succ left ih =>
      have ht : t < entryCount info cs := by omega
      cases hkind : entryKind info m cs t with
      | last => rw [listingFrom_eq ht, hkind]
      | skipped =>
          rw [listingFrom_skip ht hkind]
          exact ih (reached.succ (by rw [hkind]; decide)) (by omega) (by omega)
      | live dirent =>
          exact absurd hkind (undisturbed.firstCluster t reached ht (by omega) dirent)

/-- Some sector of the first cluster from sector `i` on, behind that of the end marker, has an
entry of the name. -/
def StaleFrom (info : FsInfo) (m : Store) (cs : List Nat) (name : List UInt8) (i : Nat) : Prop :=
  ∃ k, i ≤ k ∧ k < info.sectorsPerCluster ∧ ¬ Reached info m cs (16 * k) ∧
    ∃ dirent ∈ sectorEntries info m cs k, dirent.name = name

/-- The scan of the first cluster from a sector that is reached: it finds the first entry listed
of the name, and where none is listed it finds one only if that is stale. -/
theorem Undisturbed.scan (undisturbed : Undisturbed info m cs) (name : List UInt8)
    (hfirst : info.sectorsPerCluster * 16 ≤ entryCount info cs) {n i : Nat}
    (hin : i + n = info.sectorsPerCluster) (reached : Reached info m cs (16 * i)) :
    match (listingFrom info m cs (16 * i)).find? (fun dirent => dirent.name = name) with
    | some dirent =>
        ((List.range' i n).flatMap (sectorEntries info m cs)).find?
          (fun dirent => dirent.name = name) = some dirent
    | none =>
        ((List.range' i n).flatMap (sectorEntries info m cs)).find?
          (fun dirent => dirent.name = name) = none ↔ ¬ StaleFrom info m cs name i := by
  induction n generalizing i with
  | zero =>
      rw [undisturbed.listing_past reached (by omega)]
      refine iff_of_true rfl ?_
      rintro ⟨k, hlow, hhigh, -⟩
      omega
  | succ n ih =>
      rw [List.range'_succ, List.flatMap_cons, List.find?_append]
      by_cases hgo : ∀ j, 16 * i ≤ j → j < 16 * i + 16 → entryKind info m cs j ≠ .last
      · -- the directory goes on behind this sector
        have hsize : entryCount info cs - 16 * i = 16 + (entryCount info cs - 16 * (i + 1)) := by
          omega
        have hlist : listingFrom info m cs (16 * i)
            = sectorEntries info m cs i ++ listingFrom info m cs (16 * (i + 1)) := by
          have happend := liveEntries_append (entryCount info cs - 16 * (i + 1)) hgo
          rw [← hsize] at happend
          exact happend
        have reached' : Reached info m cs (16 * (i + 1)) := by
          intro j hj
          rcases Nat.lt_or_ge j (16 * i) with hbefore | hafter
          · exact reached j hbefore
          · exact hgo j hafter (by omega)
        have hstale : StaleFrom info m cs name i ↔ StaleFrom info m cs name (i + 1) := by
          constructor
          · rintro ⟨k, hlow, hhigh, hbehind, hentry⟩
            rcases Nat.eq_or_lt_of_le hlow with rfl | hlt
            · exact absurd reached hbehind
            · exact ⟨k, hlt, hhigh, hbehind, hentry⟩
          · rintro ⟨k, hlow, hrest⟩
            exact ⟨k, by omega, hrest⟩
        have hrest := ih (by omega : i + 1 + n = info.sectorsPerCluster) reached'
        rw [hlist, List.find?_append, hstale]
        cases (sectorEntries info m cs i).find? fun dirent => dirent.name = name with
        | some dirent => rfl
        | none => exact hrest
      · -- its end marker is in this sector
        push Not at hgo
        have hsize : entryCount info cs - 16 * i = 16 + (entryCount info cs - 16 * (i + 1)) := by
          omega
        have hlist : listingFrom info m cs (16 * i) = sectorEntries info m cs i := by
          have hstop := liveEntries_stop (entryCount info cs - 16 * (i + 1)) hgo
          rw [← hsize] at hstop
          exact hstop
        have behind : ∀ k, i < k → ¬ Reached info m cs (16 * k) := by
          intro k hk reached'
          obtain ⟨j, -, hhigh, hlast⟩ := hgo
          exact reached' j (by omega) hlast
        rw [hlist]
        cases (sectorEntries info m cs i).find? fun dirent => dirent.name = name with
        | some dirent => rfl
        | none =>
            dsimp only
            rw [Option.none_or, List.find?_eq_none]
            constructor
            · rintro hnone ⟨k, hlow, hhigh, hbehind, dirent, hmem, hname⟩
              have hk : i ≠ k := by
                rintro rfl
                exact hbehind reached
              have hsector : k ∈ List.range' (i + 1) n := List.mem_range'_1.mpr (by omega)
              have := hnone dirent (List.mem_flatMap.mpr ⟨k, hsector, hmem⟩)
              exact this (by simpa using hname)
            · intro hfresh dirent hmem hname
              obtain ⟨k, hsector, hentry⟩ := List.mem_flatMap.mp hmem
              obtain ⟨hlow, hhigh⟩ := List.mem_range'_1.mp hsector
              exact hfresh ⟨k, by omega, by omega, behind k (by omega), dirent, hentry,
                by simpa using hname⟩

/-- What a directory gives is determined. -/
theorem Lists.unique {handle : File} {d : σ} {dirents dirents' : List Dirent}
    (lists : Lists ata info handle d dirents) (lists' : Lists ata info handle d dirents') :
    dirents = dirents' := by
  obtain ⟨dir, d₁, hopen, enough, hrun⟩ := lists
  obtain ⟨dir', d₁', hopen', enough', hrun'⟩ := lists'
  rw [hopen] at hopen'
  cases hopen'
  obtain ⟨left, d₂, hleft⟩ := hrun (max enough enough') (le_max_left _ _)
  obtain ⟨right, d₃, hright⟩ := hrun' (max enough enough') (le_max_right _ _)
  rw [hleft] at hright
  cases hright
  rfl

/-- Every entry that a call gives is looked at in some place of the directory. -/
def GivenFrom (info : FsInfo) (m : Store) (cs : List Nat) (dirent : Dirent) : Prop :=
  ∃ t, t + 1 < entryCount info cs ∧ entryKind info m cs (lookedAt t) = .live dirent

/-- The search leaves the handle in a cluster of the directory. -/
theorem seekToEntry_in (reliable : Reliable ata disk) (sectored : Sectored info)
    (directory : IsDirectory info m first cs) {fuel sectorIdx idx : Nat} {dir dir' : File}
    {d d' : σ} (hdisk : disk d = m) (hin : dir.currentCluster ∈ cs)
    (hrun : seekToEntry ata info fuel sectorIdx dir d = some (some idx, dir', d')) :
    disk d' = m ∧ idx < info.sectorsPerCluster ∧ dir'.currentCluster ∈ cs := by
  induction fuel generalizing sectorIdx dir d with
  | zero => cases hrun
  | succ fuel ih =>
      rw [seekToEntry] at hrun
      split at hrun
      · subst hdisk
        obtain ⟨k, hlt, hget⟩ := List.mem_iff_getElem.mp hin
        obtain ⟨d₁, hread, hdisk₁⟩ :=
          (directory.follows.readable _ (List.getElem_mem hlt)).readFatEntry reliable sectored d
        rw [hget] at hread
        rw [hread] at hrun
        dsimp only at hrun
        split at hrun
        · cases hrun
        next hgo =>
          have hmore : k + 1 < cs.length := by
            by_contra hend
            have hlast : cs.getLast directory.nonempty = dir.currentCluster := by
              have hlength : cs.length - 1 = k := by omega
              rw [List.getLast_eq_getElem, ← hget]
              simp only [hlength]
            exact hgo (hlast ▸ directory.ends)
          obtain ⟨hlink, -⟩ := directory.follows.next hmore
          rw [hget] at hlink
          exact ih hdisk₁ (List.mem_of_getElem hlink.symm) hrun
      next hhere =>
        cases hrun
        exact ⟨hdisk, not_le.mp hhere, hin⟩

theorem readdirLoop_gives (reliable : Reliable ata disk) (sectored : Sectored info)
    (directory : IsDirectory info m first cs) {fuel t : Nat} {sector : Store} {place : Place}
    {dir dir' : File} {d d' : σ} {dirent : Option Dirent} (here : At info m cs t sector place)
    (hdir : dir.currentCluster = place.cluster) (hdisk : disk d = m)
    (hrun : readdirLoop ata info fuel sector place dir d
      = some (FS_SUCCESS, dirent, dir', d')) :
    disk d' = m ∧ (∀ given ∈ dirent, GivenFrom info m cs given) ∧ dir'.currentCluster ∈ cs := by
  induction fuel generalizing t sector place dir d with
  | zero => cases hrun
  | succ fuel ih =>
      have hentry : place.entryIdx * 32 = 32 * (t % 16) := by rw [here.entryIdx, Nat.mul_comm]
      have hstep := nextEntry_cases (d := d) reliable sectored (hdisk ▸ directory) (hdisk ▸ here)
        { dir with position := wadd 32 dir.position 32 } hdir
      rw [hdisk] at hstep
      rcases hstep with ⟨sector', place', d₁, hnext, next, hdisk₁⟩ | ⟨-, d₁, hnext, -⟩
      · rw [readdirLoop_next hnext, hentry, next.looks] at hrun
        cases hkind : entryKind info m cs (lookedAt t) with
        | last =>
            rw [hkind] at hrun
            cases hrun
        | skipped =>
            rw [hkind] at hrun
            exact ih next rfl hdisk₁ hrun
        | live found =>
            rw [hkind] at hrun
            cases hrun
            refine ⟨hdisk₁, fun given hgiven => ?_, List.mem_of_getElem? next.cluster⟩
            cases hgiven
            exact ⟨t, next.lt sectored, hkind⟩
      · rw [readdirLoop, hnext] at hrun
        cases hrun

theorem fsReaddir_gives (reliable : Reliable ata disk) (sectored : Sectored info)
    (directory : IsDirectory info m first cs) {fuel : Nat} {dir dir' : File} {d d' : σ}
    {dirent : Option Dirent} (hin : dir.currentCluster ∈ cs) (hdisk : disk d = m)
    (hrun : fsReaddir ata info fuel dir d = some (FS_SUCCESS, dirent, dir', d')) :
    disk d' = m ∧ (∀ given ∈ dirent, GivenFrom info m cs given) ∧ dir'.currentCluster ∈ cs := by
  have hmounted := sectored.not_unmounted
  rw [fsReaddir, if_neg hmounted] at hrun
  split at hrun
  · cases hrun
  dsimp only at hrun
  split at hrun
  · cases hrun
  · cases hrun
  next idx dir₁ d₁ hseek =>
    obtain ⟨hdisk₁, hidx, hin₁⟩ := seekToEntry_in reliable sectored directory hdisk hin hseek
    obtain ⟨k, hk⟩ := List.mem_iff_getElem?.mp hin₁
    have hpos := sectored.sectorsPerCluster
    have hentry : dir.position % info.bytesPerSector / 32 < 16 := by
      rw [sectored.bytesPerSector]
      omega
    -- the place, as an entry of the directory
    generalize ht : 16 * (info.sectorsPerCluster * k + idx)
      + dir.position % info.bytesPerSector / 32 = t
    have hsector : t / 16 = info.sectorsPerCluster * k + idx := by omega
    have hcluster : t / 16 / info.sectorsPerCluster = k := by
      rw [hsector, Nat.mul_add_div hpos, Nat.div_eq_of_lt hidx, Nat.add_zero]
    have hrow : t / 16 % info.sectorsPerCluster = idx := by
      rw [hsector, Nat.mul_add_mod, Nat.mod_eq_of_lt hidx]
    subst hdisk₁
    obtain ⟨sector, d₂, hread, holds, hdisk₂⟩ :=
      directory.follows.readSector reliable sectored (n := t / 16) (hcluster ▸ hk)
    rw [hrow] at hread
    rw [Place.lba] at hrun
    dsimp only at hrun
    rw [hread] at hrun
    dsimp only at hrun
    have here : At info (disk d₁) cs t sector
        ⟨dir₁.currentCluster, idx, dir.position % info.bytesPerSector / 32⟩ :=
      ⟨hcluster ▸ hk, hrow.symm, by dsimp only; omega, holds⟩
    exact readdirLoop_gives reliable sectored directory here rfl hdisk₂ hrun

theorem readEntries_gives (reliable : Reliable ata disk) (sectored : Sectored info)
    (directory : IsDirectory info m first cs) {fuel n : Nat} {dir dir' : File} {d d' : σ}
    {dirents : List Dirent} (hin : dir.currentCluster ∈ cs) (hdisk : disk d = m)
    (hrun : readEntries ata info fuel n dir d = some (dirents, dir', d')) :
    ∀ dirent ∈ dirents, GivenFrom info m cs dirent := by
  induction n generalizing dir d dirents with
  | zero => cases hrun
  | succ n ih =>
      rw [readEntries] at hrun
      split at hrun
      · cases hrun
      next result dirent dir₁ d₁ hcall =>
        split at hrun
        next hsuccess =>
          rw [hsuccess] at hcall
          obtain ⟨hdisk₁, hgiven, hin₁⟩ := fsReaddir_gives reliable sectored directory hin hdisk hcall
          obtain ⟨out, hrest, hout⟩ := Option.map_eq_some_iff.mp hrun
          obtain ⟨hlist, hleft⟩ := Prod.mk.inj hout
          rw [← hlist]
          have hpair : out = (out.1, dir', d') := Prod.ext rfl hleft
          rw [hpair] at hrest
          intro found hmem
          rcases List.mem_append.mp hmem with hfirst | hlater
          · exact hgiven found (Option.mem_toList.mp hfirst)
          · exact ih hin₁ hdisk₁ hrest found hlater
        next =>
          cases hrun
          intro dirent hmem
          cases hmem

/-- The last entry of the first sector is never looked at. -/
theorem lookedAt_ne (t : Nat) : lookedAt t ≠ 15 := by
  unfold lookedAt
  split <;> omega

/-- A tidy directory whose live entries have different names, all of which can be opened. -/
structure Distinct (info : FsInfo) (m : Store) (cs : List Nat) : Prop where
  tidy : Tidy info m cs
  proper : ∀ t < entryCount info cs, ∀ dirent, entryKind info m cs t = .live dirent →
    dirent.name ≠ [] ∧ 0x2F ∉ dirent.name
  differ : ∀ s t, s < entryCount info cs → t < entryCount info cs → s ≠ t → ∀ left right,
    entryKind info m cs s = .live left → entryKind info m cs t = .live right →
      left.name ≠ right.name

/-- Of a directory whose first sector is full the calls never give the sixteenth entry, but it
can be opened. -/
theorem Distinct.undisturbed (reliable : Reliable ata disk) (sectored : Sectored info)
    (handle : File) {d : σ} (directory : IsDirectory info (disk d) info.rootCluster cs)
    (distinct : Distinct info (disk d) cs)
    (agrees : ∀ name, name ≠ [] → 0x2F ∉ name → OpenAgrees ata info handle d name) :
    Undisturbed info (disk d) cs := by
  have hsixteen := directory.sixteen_le sectored
  cases hkind : entryKind info (disk d) cs 15 with
  | last => exact distinct.tidy.undisturbed sectored hkind
  | skipped => exact absurd hkind (distinct.tidy.plain 15 (by omega))
  | live hidden =>
      obtain ⟨hname, hslash⟩ := distinct.proper 15 (by omega) hidden hkind
      obtain ⟨dirents, ⟨dir, d₁, hopendir, enough, hrun⟩, hmatch⟩ := agrees _ hname hslash
      -- the calls do not give it
      have hgiven : dirents.find? (fun dirent => dirent.name = hidden.name) = none := by
        rw [fsOpendir_root sectored] at hopendir
        cases hopendir
        obtain ⟨dir', d', hread⟩ := hrun enough (le_refl _)
        have hroot : info.rootCluster ∈ cs := by
          obtain ⟨c, rest, rfl⟩ := List.exists_cons_of_ne_nil directory.nonempty
          rw [← directory.follows.head c rfl]
          exact List.mem_cons_self
        rw [List.find?_eq_none]
        intro dirent hmem heq
        obtain ⟨t, ht, hlive⟩ :=
          readEntries_gives reliable sectored directory hroot rfl hread dirent hmem
        have hlooked : lookedAt t < entryCount info cs := by
          unfold lookedAt entryCount at *
          split <;> omega
        exact distinct.differ (lookedAt t) 15 hlooked (by omega) (lookedAt_ne t) dirent hidden
          hlive hkind (by simpa using heq)
      rw [hgiven] at hmatch
      -- opening finds it
      obtain ⟨d', hopen⟩ := fsOpen_directory reliable sectored directory hname hslash handle
      have hgo : ∀ j, 0 ≤ j → j < 0 + 15 → entryKind info (disk d) cs j ≠ .last := by
        intro j _ hj hlast
        have hends := distinct.tidy.ends j 15 (by omega) (by omega) hlast
        rw [hkind] at hends
        cases hends
      have hmem : hidden ∈ (List.range' 0 info.sectorsPerCluster).flatMap
          (sectorEntries info (disk d) cs) := by
        have hfirst : 0 ∈ List.range' 0 info.sectorsPerCluster :=
          List.mem_range'_1.mpr ⟨le_refl 0, by have := sectored.sectorsPerCluster; omega⟩
        exact List.mem_flatMap.mpr ⟨0, hfirst, mem_liveEntries (by decide : 15 < 16) hgo hkind⟩
      dsimp only at hmatch
      rw [hopen] at hmatch
      cases hfind : ((List.range' 0 info.sectorsPerCluster).flatMap
        (sectorEntries info (disk d) cs)).find? fun dirent => dirent.name = hidden.name with
      | none =>
          have hunnamed := List.find?_eq_none.mp hfind hidden hmem
          simp at hunnamed
      | some dirent =>
          rw [hfind] at hmatch
          exact absurd rfl hmatch

end Curnel.Filesystem
