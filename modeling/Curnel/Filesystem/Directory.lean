/-
fs_open finds a file by its name in the root directory.

Only the first cluster of the root directory is scanned. On a disk that works the
result is a function of the bytes of that cluster (`lookup`, `fsOpen_eq`), so it is the
same as long as they are (`lookup_congr`).
-/

import Curnel.Filesystem.Read

namespace Curnel.Filesystem

open Lib Bytes Word

variable {σ : Type}

/-! ### The code -/

/-- The 8.3 name of the directory entry at `a`, up to its first NUL. -/
def shortName (sector : Store) (a : Nat) : List UInt8 :=
  let base := (readBytes sector a 8).filter (· ≠ 0x20)
  let extension :=
    if sector (a + 8) ≠ 0x20 then 0x2E :: (readBytes sector (a + 8) 3).filter (· ≠ 0x20) else []
  (base ++ extension).takeWhile (· ≠ 0)

/-- What `fs_open` and `fs_readdir` take from the directory entry at `a`. -/
def entryDirent (sector : Store) (a : Nat) : Dirent where
  name := shortName sector a
  size := readLE sector (a + 28) 4
  flags := if readLE sector (a + 11) 1 &&& 0x10 ≠ 0 then FS_DIRECTORY else FS_FILE
  cluster := readLE sector (a + 20) 2 <<< 16 ||| readLE sector (a + 26) 2

/-- The loop of `fs_open` over the next `n` entries of a sector, from offset `j` on. -/
def findInSector (filename : List UInt8) (sector : Store) : Nat → Nat → Option Dirent
  | 0, _ => none
  | n + 1, j =>
      if sector j = 0 then none
      else if sector j = 0xE5 then findInSector filename sector n (j + 32)
      else if sector (j + 11) = 0x0F then findInSector filename sector n (j + 32)
      else if shortName sector j = filename then some (entryDirent sector j)
      else findInSector filename sector n (j + 32)

/-- The loop of `fs_open` over the next `n` sectors of the root cluster: the entry, or what
is returned without one. -/
def scanRoot (ata : Ata σ) (info : FsInfo) (filename : List UInt8) :
    Nat → Nat → σ → Except Int Dirent × σ
  | 0, _, d => (.error FS_NOT_FOUND, d)
  | n + 1, i, d =>
      match ata.readSector (wadd 32 (fat32ClusterToLba info info.rootCluster) i) d with
      | (none, d) => (.error FS_ERROR, d)
      | (some sector, d) =>
          match findInSector filename sector ((info.bytesPerSector + 31) / 32) 0 with
          | some dirent => (.ok dirent, d)
          | none => scanRoot ata info filename n (i + 1) d

/-- The handle `fs_open` fills in for a directory entry. -/
def opened (info : FsInfo) (dirent : Dirent) : File where
  dirent := dirent
  position := 0
  currentCluster := dirent.cluster
  device := info.device

/-- The path has no NUL. A call that fails leaves the handle as it is. -/
def fsOpen (ata : Ata σ) (info : FsInfo) (path : List UInt8) (file : File) (d : σ) :
    Int × File × σ :=
  if info.mounted = false then (FS_NOT_MOUNTED, file, d)
  else if path = [0x2F] then
    (FS_SUCCESS, opened info ⟨[0x2F], 0, FS_DIRECTORY, info.rootCluster⟩, d)
  else
    match scanRoot ata info (path.dropWhile (· = 0x2F)) info.sectorsPerCluster 0 d with
    | (.error e, d) => (e, file, d)
    | (.ok dirent, d) => (FS_SUCCESS, opened info dirent, d)

def fsClose (_ : File) : Int := FS_SUCCESS

/-! ### What the root directory holds -/

/-- Sector `i` of a cluster. -/
def clusterSector (info : FsInfo) (m : Store) (c i : Nat) : Store :=
  fun k => m (dataAddr info c + 512 * i + k)

/-- The first entry of that name in `n` sectors of the root cluster, from sector `i` on. -/
def lookupFrom (info : FsInfo) (m : Store) (filename : List UInt8) : Nat → Nat → Option Dirent
  | 0, _ => none
  | n + 1, i =>
      match findInSector filename (clusterSector info m info.rootCluster i) 16 0 with
      | some dirent => some dirent
      | none => lookupFrom info m filename n (i + 1)

/-- The first entry of that name in the root cluster. -/
def lookup (info : FsInfo) (m : Store) (filename : List UInt8) : Option Dirent :=
  lookupFrom info m filename info.sectorsPerCluster 0

/-- An entry depends on its own 32 bytes only, wherever they are. -/
theorem entry_congr {s s' : Store} {a b : Nat} (h : ∀ k < 32, s (a + k) = s' (b + k)) :
    shortName s a = shortName s' b ∧ entryDirent s a = entryDirent s' b := by
  have hpart : ∀ {o n}, o + n ≤ 32 → ∀ k < n, s (a + o + k) = s' (b + o + k) := by
    intro o n hin k hk
    rw [Nat.add_assoc, Nat.add_assoc]
    exact h (o + k) (by omega)
  have hword : ∀ o n, o + n ≤ 32 → readLE s (a + o) n = readLE s' (b + o) n :=
    fun o n hin => readLE_shift (hpart hin)
  have hbase : readBytes s a 8 = readBytes s' b 8 := readBytes_shift fun k hk => h k (by omega)
  have hextension : readBytes s (a + 8) 3 = readBytes s' (b + 8) 3 :=
    readBytes_shift (hpart (by decide))
  have hname : shortName s a = shortName s' b := by
    unfold shortName
    rw [h 8 (by decide), hbase, hextension]
  refine ⟨hname, ?_⟩
  unfold entryDirent
  rw [hname, hword 28 4 (by decide), hword 11 1 (by decide), hword 20 2 (by decide),
    hword 26 2 (by decide)]

theorem findInSector_congr {s s' : Store} {filename : List UInt8} (h : ∀ k < 512, s k = s' k)
    {n j : Nat} (hin : j + 32 * n ≤ 512) :
    findInSector filename s n j = findInSector filename s' n j := by
  induction n generalizing j with
  | zero => rfl
  | succ n ih =>
      obtain ⟨hname, hdirent⟩ := @entry_congr s s' j j fun k hk => h (j + k) (by omega)
      rw [findInSector, findInSector, h j (by omega), h (j + 11) (by omega), hname, hdirent,
        ih (by omega)]

variable {ata : Ata σ} {disk : σ → Store} {info : FsInfo} {filename : List UInt8}

theorem scanRoot_eq (reliable : Reliable ata disk) (volume : Volume info)
    (root : Valid info info.rootCluster) {n i : Nat} (hin : i + n = info.sectorsPerCluster)
    (d : σ) :
    ∃ d', scanRoot ata info filename n i d
        = (match lookupFrom info (disk d) filename n i with
          | some dirent => .ok dirent
          | none => .error FS_NOT_FOUND, d') ∧ disk d' = disk d := by
  induction n generalizing i d with
  | zero => exact ⟨d, rfl, rfl⟩
  | succ n ih =>
      have ho : 512 * i < info.bytesPerCluster := by
        rw [volume.bytesPerCluster]
        omega
      obtain ⟨hlba, hlt, haddr⟩ := volume.data_sector root ho
      rw [Nat.mul_div_cancel_left i (by decide)] at hlba hlt haddr
      rw [Nat.mul_mod_right, Nat.add_zero] at haddr
      obtain ⟨sector, d₁, hread, hsector, hdisk₁⟩ := reliable.read _ d hlt
      have hsame : findInSector filename sector 16 0
          = findInSector filename (clusterSector info (disk d) info.rootCluster i) 16 0 := by
        refine findInSector_congr (fun k hk => ?_) (Nat.le_refl 512)
        rw [hsector k hk, haddr, clusterSector]
      rw [scanRoot, lookupFrom, hlba, hread, volume.bytesPerSector]
      dsimp only
      rw [hsame]
      cases findInSector filename (clusterSector info (disk d) info.rootCluster i) 16 0 with
      | some dirent => exact ⟨d₁, rfl, hdisk₁⟩
      | none =>
          obtain ⟨d', hrest, hdisk'⟩ := ih (by omega : i + 1 + n = info.sectorsPerCluster) d₁
          rw [hdisk₁] at hrest hdisk'
          exact ⟨d', hrest, hdisk'⟩

/-- `fs_open` of a file of the root directory. -/
theorem fsOpen_eq (reliable : Reliable ata disk) (volume : Volume info)
    (root : Valid info info.rootCluster) {path : List UInt8} (hpath : path ≠ [0x2F]) (file : File)
    (d : σ) :
    ∃ d', fsOpen ata info path file d
        = (match lookup info (disk d) (path.dropWhile (· = 0x2F)) with
          | some dirent => (FS_SUCCESS, opened info dirent, d')
          | none => (FS_NOT_FOUND, file, d')) ∧ disk d' = disk d := by
  have hmounted := volume.not_unmounted
  obtain ⟨d', hscan, hdisk'⟩ := @scanRoot_eq _ _ _ _ (path.dropWhile (· = 0x2F)) reliable volume
    root info.sectorsPerCluster 0 (Nat.zero_add _) d
  refine ⟨d', ?_, hdisk'⟩
  rw [fsOpen, if_neg hmounted, if_neg hpath, hscan, lookup]
  cases lookupFrom info (disk d) (path.dropWhile (· = 0x2F)) info.sectorsPerCluster 0 with
  | some dirent => rfl
  | none => rfl

/-- The root directory holds the same as long as its cluster does. -/
theorem lookup_congr (volume : Volume info) {m m' : Store}
    (same : SameCluster info m m' info.rootCluster) :
    lookup info m' filename = lookup info m filename := by
  have hfrom : ∀ n i, i + n ≤ info.sectorsPerCluster →
      lookupFrom info m' filename n i = lookupFrom info m filename n i := by
    intro n
    induction n with
    | zero =>
        intro i _
        rfl
    | succ n ih =>
        intro i hin
        have hsector : findInSector filename (clusterSector info m' info.rootCluster i) 16 0
            = findInSector filename (clusterSector info m info.rootCluster i) 16 0 := by
          refine findInSector_congr (fun k hk => ?_) (Nat.le_refl 512)
          refine same _ (Or.inr ?_)
          rw [volume.bytesPerCluster]
          omega
        rw [lookupFrom, lookupFrom, hsector, ih (i + 1) (by omega)]
  exact hfrom _ _ (Nat.le_of_eq (Nat.zero_add _))

theorem findInSector_size {sector : Store} {n j : Nat} {dirent : Dirent}
    (h : findInSector filename sector n j = some dirent) : dirent.size < 2 ^ 32 := by
  induction n generalizing j with
  | zero => cases h
  | succ n ih =>
      rw [findInSector] at h
      split at h
      · cases h
      split at h
      · exact ih h
      split at h
      · exact ih h
      split at h
      · rw [← Option.some.inj h]
        exact readLE_lt sector (j + 28) 4
      · exact ih h

theorem lookup_size {m : Store} {dirent : Dirent} (h : lookup info m filename = some dirent) :
    dirent.size < 2 ^ 32 := by
  have hfrom : ∀ n i, lookupFrom info m filename n i = some dirent → dirent.size < 2 ^ 32 := by
    intro n
    induction n with
    | zero =>
        intro i h
        cases h
    | succ n ih =>
        intro i h
        rw [lookupFrom] at h
        split at h
        next found hfound =>
          rw [← Option.some.inj h]
          exact findInSector_size hfound
        next => exact ih _ h
  exact hfrom _ _ h

end Curnel.Filesystem
