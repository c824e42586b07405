/-
fs_read copies the bytes of the file, and fs_seek goes to a position of it.

On a disk that works both leave the disk alone. Reading needs less of a volume than
writing: no more than clusters that follow one another in the FAT (`Follows`), in
sectors whose LBAs fit in 32 bits. `fsRead_spec` says which bytes a call copies:
those of the chain from the position on, as far as the file reaches; so it does not
matter how a read is split (`fs_read_copies`).
-/

import Curnel.Filesystem.Write

namespace Curnel.Filesystem

open Lib Bytes Word

variable {σ : Type}

/-! ### The code -/

/-- The loop of `fs_read` that goes to the cluster of `position`. The result is that
cluster, or `none` where the chain ends before it. -/
def seekToRead (ata : Ata σ) (info : FsInfo) (position : Nat) :
    Nat → Nat → Nat → σ → Option (Option Nat × σ)
  | 0, _, _, _ => none
  | fuel + 1, pos, cluster, d =>
      if wadd 32 pos info.bytesPerCluster ≤ position then
        let (next, d) := fat32ReadFatEntry ata info cluster d
        if next ≥ FAT32_EOC then some (none, d)
        else seekToRead ata info position fuel (wadd 32 pos info.bytesPerCluster) next d
      else some (some cluster, d)

/-- How the reading loop of `fs_read` ends. -/
structure Copied where
  /-- A sector could not be read. -/
  failed : Bool
  position : Nat
  bytesLeft : Nat
  dst : List UInt8

/-- The reading loop of `fs_read`, with the bytes that have been copied. -/
def readLoop (ata : Ata σ) (info : FsInfo) :
    Nat → Nat → Nat → Nat → Nat → List UInt8 → σ → Option (Copied × σ)
  | 0, _, _, _, _, _, _ => none
  | fuel + 1, cluster, clusterPos, position, bytesLeft, dst, d =>
      if bytesLeft > 0 then
        let sectorLba := wadd 32 (fat32ClusterToLba info cluster) (clusterPos / info.bytesPerSector)
        let offset := clusterPos % info.bytesPerSector
        match ata.readSector sectorLba d with
        | (none, d) => some (⟨true, position, bytesLeft, dst⟩, d)
        | (some sector, d) =>
            let room := wsub 32 info.bytesPerSector offset
            let sectorBytes := if room > bytesLeft then bytesLeft else room
            let dst := dst ++ readBytes sector offset sectorBytes
            let bytesLeft := bytesLeft - sectorBytes
            let clusterPos := wadd 32 clusterPos sectorBytes
            let position := wadd 32 position sectorBytes
            if clusterPos ≥ info.bytesPerCluster then
              let (next, d) := fat32ReadFatEntry ata info cluster d
              if next ≥ FAT32_EOC ∧ bytesLeft > 0 then some (⟨false, position, bytesLeft, dst⟩, d)
              else readLoop ata info fuel next 0 position bytesLeft dst d
            else readLoop ata info fuel cluster clusterPos position bytesLeft dst d
      else some (⟨false, position, 0, dst⟩, d)

/-- The result of `fs_read`, with the bytes that it has copied to the buffer. -/
def fsRead (ata : Ata σ) (info : FsInfo) (fuel : Nat) (file : File) (size : Nat) (d : σ) :
    Option (Int × List UInt8 × File × σ) :=
  if info.mounted = false then some (FS_NOT_MOUNTED, [], file, d)
  else if file.dirent.flags &&& FS_DIRECTORY ≠ 0 then some (FS_ERROR, [], file, d)
  else if file.position ≥ file.dirent.size then some (0, [], file, d)
  else
    let size :=
      if wadd 64 file.position size > file.dirent.size then file.dirent.size - file.position
      else size
    match seekToRead ata info file.position fuel 0 file.dirent.cluster d with
    | none => none
    | some (none, d) => some (0, [], file, d)
    | some (some cluster, d) =>
        match readLoop ata info fuel cluster (file.position % info.bytesPerCluster) file.position
          size [] d with
        | none => none
        | some (⟨true, position, _, dst⟩, d) =>
            some (FS_ERROR, dst, { file with position := position }, d)
        | some (⟨false, position, bytesLeft, dst⟩, d) =>
            some (toInt32 (size - bytesLeft), dst, { file with position := position }, d)

def fsSeek (info : FsInfo) (file : File) (position : Nat) : Int × File :=
  if info.mounted = false then (FS_NOT_MOUNTED, file)
  else
    let position := if position > file.dirent.size then file.dirent.size else position
    (FS_SUCCESS, { file with position := position })

/-- Successive reads of `ns` bytes, and all that they have copied. -/
def fsReads (ata : Ata σ) (info : FsInfo) (fuel : Nat) :
    List Nat → File → σ → Option (List UInt8 × File × σ)
  | [], file, d => some ([], file, d)
  | n :: ns, file, d =>
      match fsRead ata info fuel file n d with
      | none => none
      | some (_, bytes, file, d) =>
          (fsReads ata info fuel ns file d).map fun out => (bytes ++ out.1, out.2)

variable {ata : Ata σ} {disk : σ → Store} {info : FsInfo} {first : Nat} {cs : List Nat}

/-! ### What reading needs of a volume -/

/-- A mounted volume with sectors of 512 bytes. -/
structure Sectored (info : FsInfo) : Prop where
  mounted : info.mounted = true
  bytesPerSector : info.bytesPerSector = 512
  sectorsPerCluster : 0 < info.sectorsPerCluster
  bytesPerCluster : info.bytesPerCluster = 512 * info.sectorsPerCluster

/-- A cluster whose FAT entry and whose data are in sectors with LBAs below 2³². -/
structure Readable (info : FsInfo) (c : Nat) : Prop where
  isCluster : 2 ≤ c ∧ c < FAT32_EOC
  entry : info.fatStart + c * 4 / 512 < 2 ^ 32
  data : info.dataStart + (c - 2 + 1) * info.sectorsPerCluster ≤ 2 ^ 32

/-- The FAT leads from `first` through the clusters `cs`, wherever it leads after them. -/
structure Follows (info : FsInfo) (m : Store) (first : Nat) (cs : List Nat) : Prop where
  head : ∀ c ∈ cs.head?, c = first
  links : cs.IsChain fun c next => fat info m c = next
  readable : ∀ c ∈ cs, Readable info c

theorem Volume.sectored (volume : Volume info) : Sectored info :=
  ⟨volume.mounted, volume.bytesPerSector, volume.sectorsPerCluster, volume.bytesPerCluster⟩

theorem Sectored.not_unmounted (sectored : Sectored info) : ¬ info.mounted = false := by
  rw [sectored.mounted]
  decide

theorem Sectored.bytesPerCluster_pos (sectored : Sectored info) : 0 < info.bytesPerCluster := by
  rw [sectored.bytesPerCluster]
  have := sectored.sectorsPerCluster
  omega

theorem Valid.readable (volume : Volume info) {c : Nat} (hc : Valid info c) : Readable info c := by
  have hentries := volume.entries_le
  have hsector := volume.layout.fat_sector hc.2
  refine ⟨⟨hc.1, Nat.lt_of_not_le (volume.not_eoc hc.2)⟩, hsector, le_trans ?_ volume.lba_le⟩
  exact Nat.add_le_add_left (Nat.mul_le_mul_right _ (by have := hc.1; have := hc.2; omega)) _

theorem Chain.follows {m : Store} (volume : Volume info) (chain : Chain info m first cs) :
    Follows info m first cs := by
  refine ⟨fun c hc => ?_, ?_, fun c hc => (chain.valid c hc).readable volume⟩
  · cases cs with
    | nil => cases hc
    | cons x xs =>
        cases hc
        exact chain.linked.head_eq (List.cons_ne_nil _ _)
  · rw [List.isChain_iff_getElem]
    intro i hi
    exact ((chain.linked.next_getElem (Nat.lt_of_succ_lt hi)).1 hi).1

theorem Follows.next {m : Store} (follows : Follows info m first cs) {i : Nat}
    (hi : i + 1 < cs.length) :
    fat info m cs[i] = cs[i + 1] ∧ ¬ FAT32_EOC ≤ fat info m cs[i] := by
  have hlink := List.isChain_iff_getElem.mp follows.links i hi
  refine ⟨hlink, ?_⟩
  rw [hlink]
  exact Nat.not_le.mpr (follows.readable _ (List.getElem_mem hi)).isCluster.2

/-- The FAT entry of a cluster that can be read. -/
theorem Readable.readFatEntry (reliable : Reliable ata disk) (sectored : Sectored info) {c : Nat}
    (hc : Readable info c) (d : σ) :
    ∃ d', fat32ReadFatEntry ata info c d = (fat info (disk d) c, d') ∧ disk d' = disk d := by
  have hlt := hc.isCluster.2
  unfold FAT32_EOC at hlt
  rw [fat, ← entryAddr_eq hc.entry]
  exact fat32ReadFatEntry_at reliable sectored.bytesPerSector (by omega) d

/-- The sector of a position in a cluster: its LBA, and the place of the position in it. -/
theorem Sectored.data_sector (sectored : Sectored info) {c o : Nat}
    (hcluster : 2 ≤ c ∧ c < FAT32_EOC)
    (hdata : info.dataStart + (c - 2 + 1) * info.sectorsPerCluster ≤ 2 ^ 32)
    (ho : o < info.bytesPerCluster) :
    wadd 32 (fat32ClusterToLba info c) (o / 512)
        = info.dataStart + (c - 2) * info.sectorsPerCluster + o / 512 ∧
      info.dataStart + (c - 2) * info.sectorsPerCluster + o / 512 < 2 ^ 32 ∧
      512 * (info.dataStart + (c - 2) * info.sectorsPerCluster + o / 512) + o % 512
        = dataAddr info c + o := by
  obtain ⟨htwo, hlt⟩ := hcluster
  unfold FAT32_EOC at hlt
  exact clusterSector_lba sectored.bytesPerCluster htwo (by omega) hdata ho

theorem Readable.data_sector (sectored : Sectored info) {c o : Nat} (hc : Readable info c)
    (ho : o < info.bytesPerCluster) :
    wadd 32 (fat32ClusterToLba info c) (o / 512)
        = info.dataStart + (c - 2) * info.sectorsPerCluster + o / 512 ∧
      info.dataStart + (c - 2) * info.sectorsPerCluster + o / 512 < 2 ^ 32 ∧
      512 * (info.dataStart + (c - 2) * info.sectorsPerCluster + o / 512) + o % 512
        = dataAddr info c + o :=
  sectored.data_sector hc.isCluster hc.data ho

/-! ### The seek loop -/

/-- From cluster `i` of the chain to the cluster of a position within it. -/
theorem seekToRead_spec (reliable : Reliable ata disk) (sectored : Sectored info) {position : Nat}
    (hposition : (position / info.bytesPerCluster + 1) * info.bytesPerCluster < 2 ^ 32)
    {fuel i : Nat} {d : σ} (follows : Follows info (disk d) first cs) (hi : i < cs.length)
    (hindex : i ≤ position / info.bytesPerCluster)
    (hend : position / info.bytesPerCluster < cs.length)
    (hfuel : position / info.bytesPerCluster - i < fuel) :
    ∃ d', seekToRead ata info position fuel (i * info.bytesPerCluster) cs[i] d
        = some (some cs[position / info.bytesPerCluster], d') ∧ disk d' = disk d := by
  have hpos := sectored.bytesPerCluster_pos
  have hdiv := Nat.div_mul_le_self position info.bytesPerCluster
  induction fuel generalizing i d with
  | zero => omega
  | succ fuel ih =>
      have hadd := nextCluster_eq hposition hindex
      rw [seekToRead, hadd]
      by_cases hreached : (i + 1) * info.bytesPerCluster ≤ position
      · rw [if_pos hreached]
        have hmore : i + 1 ≤ position / info.bytesPerCluster :=
          (Nat.le_div_iff_mul_le hpos).mpr hreached
        have hlt : i + 1 < cs.length := by omega
        obtain ⟨d₁, hread, hdisk₁⟩ :=
          (follows.readable _ (List.getElem_mem hi)).readFatEntry reliable sectored d
        obtain ⟨hlink, hgo⟩ := follows.next hlt
        rw [hread]
        dsimp only
        rw [if_neg hgo, hlink]
        rw [← hdisk₁] at follows
        obtain ⟨d', hrun, hdisk'⟩ := ih follows hlt hmore (by omega)
        exact ⟨d', hrun, hdisk'.trans hdisk₁⟩
      · rw [if_neg hreached]
        have hsame := div_eq_of_last hpos hindex hreached
        refine ⟨d, ?_, rfl⟩
        simp only [hsame]

/-! ### The reading loop -/

/-- The bytes at `n` positions of a chain from `p` on. -/
def spanBytes (info : FsInfo) (m : Store) (cs : List Nat) (p n : Nat) : List UInt8 :=
  (List.range n).map fun k => m (location info cs (p + k))

theorem spanBytes_add (m : Store) (p n k : Nat) :
    spanBytes info m cs p (n + k) = spanBytes info m cs p n ++ spanBytes info m cs (p + n) k := by
  unfold spanBytes
  rw [List.range_add, List.map_append, List.map_map]
  refine congrArg _ (List.map_congr_left fun j _ => ?_)
  rw [Function.comp_apply, Nat.add_assoc]

theorem spanBytes_eq {m : Store} {p n size : Nat} (h : p + n ≤ size) :
    spanBytes info m cs p n = ((chainBytes info m cs size).drop p).take n := by
  apply List.ext_getElem
  · simp [spanBytes, chainBytes]
    omega
  · intro k hk hk'
    simp [spanBytes, chainBytes]

/-- One sector of the reading loop, up to the question of the next cluster. -/
theorem readLoop_sector (reliable : Reliable ata disk) (sectored : Sectored info)
    {fuel i p o left : Nat} {dst : List UInt8} {d : σ} (follows : Follows info (disk d) first cs)
    (hi : i < cs.length) (ho : o < info.bytesPerCluster) (hp : p = i * info.bytesPerCluster + o)
    (hleft : 0 < left) (hlt : p + left < 2 ^ 32) :
    ∃ n d', 0 < n ∧ n ≤ left ∧ o + n ≤ info.bytesPerCluster ∧ disk d' = disk d ∧
      readLoop ata info (fuel + 1) cs[i] o p left dst d =
        if o + n ≥ info.bytesPerCluster then
          let (next, d) := fat32ReadFatEntry ata info cs[i] d'
          if next ≥ FAT32_EOC ∧ left - n > 0 then
            some (⟨false, p + n, left - n, dst ++ spanBytes info (disk d') cs p n⟩, d)
          else readLoop ata info fuel next 0 (p + n) (left - n)
            (dst ++ spanBytes info (disk d') cs p n) d
        else readLoop ata info fuel cs[i] (o + n) (p + n) (left - n)
          (dst ++ spanBytes info (disk d') cs p n) d' := by
  have hreadable := follows.readable _ (List.getElem_mem hi)
  obtain ⟨hadd, hlba, haddr⟩ := hreadable.data_sector sectored ho
  have hpos := sectored.bytesPerCluster_pos
  have hindex : p / info.bytesPerCluster = i := by
    rw [hp, Nat.mul_comm, Nat.mul_add_div hpos, Nat.div_eq_of_lt ho, Nat.add_zero]
  have hoffset : p % info.bytesPerCluster = o := by
    rw [hp, Nat.mul_comm, Nat.mul_add_mod, Nat.mod_eq_of_lt ho]
  have hlocation : dataAddr info cs[i] + o = location info cs p := by
    rw [location, hindex, hoffset, List.getD_eq_getElem _ _ hi]
  have hroom : wsub 32 512 (o % 512) = 512 - o % 512 := wsub_of_le (by decide) (by omega)
  generalize hn : (if 512 - o % 512 > left then left else 512 - o % 512) = n
  have hn' : 0 < n ∧ n ≤ left ∧ o % 512 + n ≤ 512 := by
    rw [← hn]
    split <;> omega
  have hcluster : o + n ≤ info.bytesPerCluster := by
    rw [sectored.bytesPerCluster] at ho ⊢
    have hrow : o / 512 + 1 ≤ info.sectorsPerCluster := Nat.div_lt_of_lt_mul ho
    omega
  obtain ⟨sector, d₁, hread, hsector, hdisk₁⟩ := reliable.read _ d hlba
  have hbytes : readBytes sector (o % 512) n = spanBytes info (disk d₁) cs p n := by
    apply List.map_congr_left
    intro k hk
    have hk := List.mem_range.mp hk
    rw [hsector _ (by omega), hdisk₁, location_add (by rw [hoffset]; omega), ← hlocation, ← haddr]
    exact congrArg (disk d) (Nat.add_assoc _ _ _).symm
  refine ⟨n, d₁, hn'.1, hn'.2.1, hcluster, hdisk₁, ?_⟩
  have hover : i * info.bytesPerCluster + o + left < 2 ^ 32 := by rwa [← hp]
  have hpos' : wadd 32 o n = o + n := wadd_of_lt (by omega)
  have hposition : wadd 32 p n = p + n := wadd_of_lt (by omega)
  rw [readLoop, if_pos hleft, sectored.bytesPerSector]
  simp only [hadd, hread, hroom, hn, hpos', hposition, hbytes]

/-- The reading loop, from a position in cluster `i` of the chain on. -/
theorem readLoop_spec (reliable : Reliable ata disk) (sectored : Sectored info)
    {fuel i cluster o p left : Nat} {dst : List UInt8} {d : σ}
    (follows : Follows info (disk d) first cs)
    (hat : 0 < left → i < cs.length ∧ cs[i]? = some cluster ∧ o < info.bytesPerCluster ∧
      p = i * info.bytesPerCluster + o)
    (hend : p + left ≤ cs.length * info.bytesPerCluster) (hlt : p + left < 2 ^ 32)
    (hfuel : left < fuel) :
    ∃ d', readLoop ata info fuel cluster o p left dst d
        = some (⟨false, p + left, 0, dst ++ spanBytes info (disk d) cs p left⟩, d') ∧
      disk d' = disk d := by
  induction fuel generalizing i cluster o p left dst d with
  | zero => omega
  | succ fuel ih =>
      rcases Nat.eq_zero_or_pos left with rfl | hleft
      · refine ⟨d, ?_, rfl⟩
        rw [readLoop, if_neg (by omega), spanBytes, List.range_zero, List.map_nil, List.append_nil,
          Nat.add_zero]
      obtain ⟨hi, hcluster, ho, hp⟩ := hat hleft
      have hcluster' : cluster = cs[i] := by
        rw [List.getElem?_eq_getElem hi] at hcluster
        exact (Option.some.inj hcluster).symm
      subst hcluster'
      obtain ⟨n, d₁, hn, hle, hin, hdisk₁, hrun⟩ :=
        @readLoop_sector _ _ _ _ _ _ reliable sectored fuel _ _ _ _ dst _ follows hi ho hp hleft hlt
      have hpos := sectored.bytesPerCluster_pos
      have hsum : n + (left - n) = left := by omega
      have hbytes : dst ++ spanBytes info (disk d) cs p n
            ++ spanBytes info (disk d) cs (p + n) (left - n)
          = dst ++ spanBytes info (disk d) cs p left := by
        rw [List.append_assoc, ← spanBytes_add, hsum]
      have hposition : p + n + (left - n) = p + left := by omega
      have follows₁ : Follows info (disk d₁) first cs := hdisk₁ ▸ follows
      rw [hrun, hdisk₁]
      by_cases hfull : o + n ≥ info.bytesPerCluster
      · rw [if_pos hfull]
        have hnextPos : p + n = (i + 1) * info.bytesPerCluster + 0 := by
          rw [Nat.add_mul, Nat.one_mul]
          omega
        obtain ⟨d₂, hread, hdisk₂⟩ :=
          (follows₁.readable _ (List.getElem_mem hi)).readFatEntry reliable sectored d₁
        have hmore : 0 < left - n → i + 1 < cs.length := by
          intro hpositive
          by_contra hlast
          have hshort : cs.length * info.bytesPerCluster ≤ (i + 1) * info.bytesPerCluster :=
            Nat.mul_le_mul_right _ (by omega)
          omega
        have hgo : ¬ (fat info (disk d₁) cs[i] ≥ FAT32_EOC ∧ left - n > 0) := fun hstop =>
          (follows₁.next (hmore hstop.2)).2 hstop.1
        have hat' : 0 < left - n → i + 1 < cs.length ∧
            cs[i + 1]? = some (fat info (disk d₁) cs[i]) ∧ 0 < info.bytesPerCluster ∧
            p + n = (i + 1) * info.bytesPerCluster + 0 := by
          intro hpositive
          have hlt' := hmore hpositive
          rw [(follows₁.next hlt').1]
          exact ⟨hlt', List.getElem?_eq_getElem hlt', hpos, hnextPos⟩
        rw [hread]
        dsimp only
        rw [if_neg hgo]
        obtain ⟨d', hloop, hdisk'⟩ := @ih (i + 1) _ 0 (p + n) (left - n)
          (dst ++ spanBytes info (disk d) cs p n) d₂ (hdisk₂ ▸ follows₁) hat' (by omega) (by omega)
          (by omega)
        rw [hdisk₂, hdisk₁, hposition, hbytes] at hloop
        rw [hdisk₁]
        exact ⟨d', hloop, hdisk'.trans (hdisk₂.trans hdisk₁)⟩
      · rw [if_neg hfull]
        have hat' : 0 < left - n → i < cs.length ∧ cs[i]? = some cs[i] ∧
            o + n < info.bytesPerCluster ∧ p + n = i * info.bytesPerCluster + (o + n) :=
          fun _ => ⟨hi, List.getElem?_eq_getElem hi, by omega, by omega⟩
        obtain ⟨d', hloop, hdisk'⟩ := @ih i _ (o + n) (p + n) (left - n)
          (dst ++ spanBytes info (disk d) cs p n) d₁ follows₁ hat' (by omega) (by omega) (by omega)
        rw [hdisk₁, hposition, hbytes] at hloop
        exact ⟨d', hloop, hdisk'.trans hdisk₁⟩

theorem fileBytes_length {m : Store} {file : File} :
    (fileBytes info m file cs).length = file.dirent.size := by
  simp [fileBytes, chainBytes]

/-! ### The whole call -/

/-- On a disk that works, `fs_read` copies the bytes of the file from the position on, and
leaves the disk alone. -/
theorem fsRead_spec (reliable : Reliable ata disk) (sectored : Sectored info) {file : File}
    {size : Nat} {d : σ} (hregular : file.dirent.flags &&& FS_DIRECTORY = 0)
    (follows : Follows info (disk d) file.dirent.cluster cs)
    (hcovers : file.dirent.size ≤ cs.length * info.bytesPerCluster)
    (hsize : file.dirent.size < 2 ^ 32) (hposition : file.position ≤ file.dirent.size)
    (hcluster : file.position < file.dirent.size →
      (file.position / info.bytesPerCluster + 1) * info.bytesPerCluster < 2 ^ 32)
    (hcount : file.position + size < 2 ^ 64) {fuel : Nat} (hfuel : file.dirent.size < fuel) :
    ∃ d', fsRead ata info fuel file size d
        = some (toInt32 (min size (file.dirent.size - file.position)),
          ((fileBytes info (disk d) file cs).drop file.position).take size,
          { file with position := file.position + min size (file.dirent.size - file.position) },
          d') ∧ disk d' = disk d := by
  have hmounted := sectored.not_unmounted
  have hpos := sectored.bytesPerCluster_pos
  rw [fsRead, if_neg hmounted, if_neg (not_not.mpr hregular)]
  rcases Nat.eq_or_lt_of_le hposition with hend | hlt
  · -- at the end of the file there is nothing to read
    refine ⟨d, ?_, rfl⟩
    have hnone : (fileBytes info (disk d) file cs).drop file.position = [] := by
      apply List.drop_eq_nil_of_le
      simp [fileBytes, chainBytes, hend]
    rw [if_pos (by omega), hnone, List.take_nil, hend, Nat.sub_self, Nat.min_zero, Nat.add_zero,
      ← hend]
    rfl
  · rw [if_neg (by omega)]
    have hlimit : (if wadd 64 file.position size > file.dirent.size then
        file.dirent.size - file.position else size) = min size (file.dirent.size - file.position) := by
      rw [wadd_of_lt hcount]
      split <;> omega
    have hin : file.position / info.bytesPerCluster < cs.length := index_lt (by omega)
    have hlength : 0 < cs.length := Nat.lt_of_le_of_lt (Nat.zero_le _) hin
    have hfirst : cs[0] = file.dirent.cluster := by
      refine follows.head _ ?_
      rw [List.head?_eq_getElem?, List.getElem?_eq_getElem hlength]
      rfl
    have hindex := Nat.div_le_self file.position info.bytesPerCluster
    obtain ⟨d₁, hseek, hdisk₁⟩ := @seekToRead_spec _ _ _ _ _ _ reliable sectored file.position
      (hcluster hlt) fuel 0 d follows hlength (Nat.zero_le _) hin (by omega)
    rw [Nat.zero_mul, hfirst] at hseek
    have hat : 0 < min size (file.dirent.size - file.position) →
        file.position / info.bytesPerCluster < cs.length ∧
        cs[file.position / info.bytesPerCluster]?
          = some cs[file.position / info.bytesPerCluster] ∧
        file.position % info.bytesPerCluster < info.bytesPerCluster ∧
        file.position = file.position / info.bytesPerCluster * info.bytesPerCluster
          + file.position % info.bytesPerCluster := fun _ =>
      ⟨hin, List.getElem?_eq_getElem hin, Nat.mod_lt _ hpos, by
        rw [Nat.mul_comm]
        exact (Nat.div_add_mod _ _).symm⟩
    obtain ⟨d', hloop, hdisk'⟩ := @readLoop_spec _ _ _ _ _ _ reliable sectored fuel _ _ _ _ _ [] d₁
      (hdisk₁ ▸ follows) hat (by omega) (by omega) (by omega)
    have hbytes : spanBytes info (disk d) cs file.position
          (min size (file.dirent.size - file.position))
        = ((fileBytes info (disk d) file cs).drop file.position).take size := by
      rw [fileBytes, @spanBytes_eq info cs _ _ _ file.dirent.size (by omega), ← List.take_take]
      refine congrArg _ (List.take_of_length_le ?_)
      simp [chainBytes]
    refine ⟨d', ?_, hdisk'.trans hdisk₁⟩
    rw [hlimit]
    dsimp only
    rw [hseek]
    dsimp only
    rw [hloop]
    dsimp only
    rw [hdisk₁, hbytes, List.nil_append, Nat.sub_zero]

/-- The same of a file on a volume that can be written. -/
theorem fs_read_spec (reliable : Reliable ata disk) (volume : Volume info) {file : File}
    {size : Nat} {d : σ} (handle : Handle info (disk d) file cs)
    (hsize : file.dirent.size < 2 ^ 32) (hposition : file.position ≤ file.dirent.size)
    (hcluster : (file.position / info.bytesPerCluster + 1) * info.bytesPerCluster < 2 ^ 32)
    (hcount : file.position + size < 2 ^ 64) {fuel : Nat} (hfuel : file.dirent.size < fuel) :
    ∃ d', fsRead ata info fuel file size d
        = some (toInt32 (min size (file.dirent.size - file.position)),
          ((fileBytes info (disk d) file cs).drop file.position).take size,
          { file with position := file.position + min size (file.dirent.size - file.position) },
          d') ∧ disk d' = disk d := by
  have follows : Follows info (disk d) file.dirent.cluster cs := by
    rcases handle.chain with ⟨-, rfl⟩ | ⟨-, chain⟩
    · exact ⟨by simp, List.isChain_nil, by simp⟩
    · exact chain.follows volume
  exact fsRead_spec reliable volume.sectored handle.regular follows handle.size_le hsize hposition
    (fun _ => hcluster) hcount hfuel

/-! ### Splitting a read -/

/-- Two slices, one behind the other. -/
theorem take_append_take_drop {α : Type} (xs : List α) (m n : Nat) :
    xs.take m ++ (xs.drop (min m xs.length)).take n = xs.take (m + n) := by
  rw [List.take_add]
  rcases Nat.le_total m xs.length with hle | hge
  · rw [Nat.min_eq_left hle]
  · rw [Nat.min_eq_right hge, List.drop_length, List.drop_eq_nil_of_le hge]

/-- Successive reads copy what one read of all their bytes would. -/
theorem fsReads_spec (reliable : Reliable ata disk) (sectored : Sectored info) {ns : List Nat}
    {file : File} {d : σ} (hregular : file.dirent.flags &&& FS_DIRECTORY = 0)
    (follows : Follows info (disk d) file.dirent.cluster cs)
    (hcovers : file.dirent.size ≤ cs.length * info.bytesPerCluster)
    (hsize : file.dirent.size ≤ 2 ^ 32 - info.bytesPerCluster)
    (hposition : file.position ≤ file.dirent.size) (hns : ∀ n ∈ ns, n < 2 ^ 31) {fuel : Nat}
    (hfuel : file.dirent.size < fuel) :
    ∃ d', fsReads ata info fuel ns file d
        = some (((fileBytes info (disk d) file cs).drop file.position).take ns.sum,
          { file with position := file.position + min ns.sum (file.dirent.size - file.position) },
          d') ∧ disk d' = disk d := by
  have hpos := sectored.bytesPerCluster_pos
  induction ns generalizing file d with
  | nil => exact ⟨d, by simp [fsReads], rfl⟩
  | cons n ns ih =>
      obtain ⟨hn, hns⟩ := List.forall_mem_cons.mp hns
      have hcluster : file.position < file.dirent.size →
          (file.position / info.bytesPerCluster + 1) * info.bytesPerCluster < 2 ^ 32 := by
        intro hlt
        have := Nat.div_mul_le_self file.position info.bytesPerCluster
        rw [Nat.add_mul, Nat.one_mul]
        omega
      obtain ⟨d₁, hread, hdisk₁⟩ := fsRead_spec reliable sectored hregular follows hcovers (by omega)
        hposition hcluster (show file.position + n < 2 ^ 64 by omega) hfuel
      rw [fsReads, hread]
      dsimp only
      obtain ⟨d', hrest, hdisk'⟩ := @ih
        { file with position := file.position + min n (file.dirent.size - file.position) } d₁
        hregular (hdisk₁ ▸ follows) hcovers hsize (by dsimp only; omega) hns hfuel
      have hbytes : (fileBytes info (disk d) file cs).drop
            (file.position + min n (file.dirent.size - file.position))
          = ((fileBytes info (disk d) file cs).drop file.position).drop
            (min n ((fileBytes info (disk d) file cs).drop file.position).length) := by
        rw [List.drop_drop, List.length_drop, fileBytes_length]
      have hsame : fileBytes info (disk d₁)
          { file with position := file.position + min n (file.dirent.size - file.position) } cs
          = fileBytes info (disk d) file cs := by
        rw [hdisk₁]
        rfl
      rw [hsame] at hrest
      refine ⟨d', ?_, hdisk'.trans hdisk₁⟩
      rw [hrest]
      dsimp only [Option.map_some]
      rw [hbytes, take_append_take_drop, List.sum_cons]
      have hadvance : file.position + min n (file.dirent.size - file.position)
            + min ns.sum (file.dirent.size
              - (file.position + min n (file.dirent.size - file.position)))
          = file.position + min (n + ns.sum) (file.dirent.size - file.position) := by
        omega
      rw [hadvance]

/-- **Reading copies the file.** On a mounted volume with sectors of 512 bytes, whose disk
works, a read of `n` bytes of a regular file copies exactly the bytes at its positions from
the present one on, as far as the file reaches, advances the position by their number, and
changes nothing else; and successive reads copy what a single one would. -/
theorem fs_read_copies (reliable : Reliable ata disk) (sectored : Sectored info) {file : File}
    {d : σ} (hregular : file.dirent.flags &&& FS_DIRECTORY = 0)
    (follows : Follows info (disk d) file.dirent.cluster cs)
    (hcovers : file.dirent.size ≤ cs.length * info.bytesPerCluster)
    (hsize : file.dirent.size ≤ 2 ^ 32 - info.bytesPerCluster)
    (hposition : file.position ≤ file.dirent.size) {fuel : Nat} (hfuel : file.dirent.size < fuel) :
    (∀ n < 2 ^ 31, ∃ bytes d', fsRead ata info fuel file n d
          = some (bytes.length, bytes, { file with position := file.position + bytes.length }, d') ∧
        bytes.length = min n (file.dirent.size - file.position) ∧
        bytes = ((fileBytes info (disk d) file cs).drop file.position).take n ∧
        disk d' = disk d) ∧
      ∀ ns : List Nat, (∀ n ∈ ns, n < 2 ^ 31) → ∃ bytes d', fsReads ata info fuel ns file d
          = some (bytes, { file with position := file.position + bytes.length }, d') ∧
        bytes = ((fileBytes info (disk d) file cs).drop file.position).take ns.sum ∧
        disk d' = disk d := by
  have hpos := sectored.bytesPerCluster_pos
  have hlength : ∀ n, (((fileBytes info (disk d) file cs).drop file.position).take n).length
      = min n (file.dirent.size - file.position) := by
    intro n
    rw [List.length_take, List.length_drop, fileBytes_length]
  constructor
  · intro n hn
    have hcluster : file.position < file.dirent.size →
        (file.position / info.bytesPerCluster + 1) * info.bytesPerCluster < 2 ^ 32 := by
      intro hlt
      have := Nat.div_mul_le_self file.position info.bytesPerCluster
      rw [Nat.add_mul, Nat.one_mul]
      omega
    obtain ⟨d', hread, hdisk'⟩ := fsRead_spec reliable sectored hregular follows hcovers (by omega)
      hposition hcluster (show file.position + n < 2 ^ 64 by omega) hfuel
    refine ⟨_, d', ?_, hlength n, rfl, hdisk'⟩
    rw [hread, hlength, toInt32_of_lt (by omega)]
  · intro ns hns
    obtain ⟨d', hreads, hdisk'⟩ := fsReads_spec reliable sectored hregular follows hcovers hsize
      hposition hns hfuel
    refine ⟨_, d', ?_, rfl, hdisk'⟩
    rw [hreads, hlength]

/-- Three bytes in cluster 2. -/
def threeBytes : Store := fun a => if a = 1024 then 7 else if a = 1025 then 8 else
  if a = 1026 then 9 else 0

/-- A file of these bytes, one of which has been read. -/
def readOne : File where
  dirent := { name := [], size := 3, flags := FS_FILE, cluster := 2 }
  position := 1
  currentCluster := 2
  device := 0

/-- The rest of it is asked for, and more. -/
theorem fs_read_copies_rest :
    ∃ d', fsRead memoryDisk smallVolume 4 readOne 5 threeBytes
        = some (2, [8, 9], { readOne with position := 3 }, d') ∧ d' = threeBytes := by
  have follows : Follows smallVolume (id threeBytes) readOne.dirent.cluster [2] :=
    ⟨by simp [readOne], List.isChain_singleton 2, fun c hc => by
      rw [List.mem_singleton.mp hc]
      exact ⟨by decide, by decide, by decide⟩⟩
  obtain ⟨hread, -⟩ := @fs_read_copies _ _ _ _ _ memoryDisk_reliable smallVolume_volume.sectored
    readOne threeBytes (by decide) follows (by decide) (by decide) (by decide) 4 (by decide)
  obtain ⟨bytes, d', hrun, -, hbytes, hdisk⟩ := hread 5 (by decide)
  have hrest : bytes = [8, 9] := hbytes.trans (by decide)
  subst hrest
  exact ⟨d', hrun, hdisk⟩

end Curnel.Filesystem
