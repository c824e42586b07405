/-
Several files of a volume, used through their handles in any order.

On a disk that works, the handles of files whose chains do not meet are open files as
`Lib.Files` has them: any order of `fs_seek`, `fs_read` and `fs_write` calls gives what
it gives there. A call that runs out of clusters has written a first part of its bytes
(`fsWrite_writes`), and its file is well formed all the same. No cluster is lost or
shared in any of it (`calls_account`).
-/

import Curnel.Filesystem.Read
import Curnel.Lib.Files
import Mathlib.Algebra.Order.BigOperators.Group.Finset

namespace Curnel.Filesystem

open Lib Bytes Word Files

variable {ι σ : Type} {ata : Ata σ} {disk : σ → Store} {info : FsInfo} {first : Nat}

/-! ### Writing on a disk that may be full -/

/-- Behind the end of the chain, with no cluster left: the seek loop gives up, and has changed
nothing. -/
theorem seekToWrite_full (reliable : Reliable ata disk) (volume : Volume info) {position : Nat}
    (hposition : (position / info.bytesPerCluster + 1) * info.bytesPerCluster < 2 ^ 32)
    {fuel i : Nat} {cs : List Nat} {d : σ} (chain : Chain info (disk d) first cs)
    (hi : i < cs.length) (hend : position / info.bytesPerCluster = cs.length)
    (hfull : (freeSet info (disk d)).card = 0)
    (hfuel : position / info.bytesPerCluster - i < fuel) :
    ∃ d', seekToWrite ata info position fuel (i * info.bytesPerCluster) cs[i] d = some (none, d') ∧
      disk d' = disk d := by
  have hpos := volume.bytesPerCluster_pos
  induction fuel generalizing i d with
  | zero => omega
  | succ fuel ih =>
      have hindex : i ≤ position / info.bytesPerCluster := by omega
      have hreached : (i + 1) * info.bytesPerCluster ≤ position :=
        (Nat.le_div_iff_mul_le hpos).mp (by omega)
      obtain ⟨d₁, hread, hdisk₁⟩ := fat32ReadFatEntry_eq reliable volume
        (chain.valid _ (List.getElem_mem hi)).2 d
      obtain ⟨hnext, hstop⟩ := chain.next hi
      rw [seekToWrite, nextCluster_eq hposition hindex, if_pos hreached, hread]
      dsimp only
      by_cases hlast : i + 1 = cs.length
      · obtain ⟨d₂, hcall, hdisk₂⟩ := @allocate_of_full _ ata disk _ reliable volume d₁
          (by rw [hdisk₁]; exact hfull)
        rw [if_pos (hstop hlast), hcall]
        exact ⟨d₂, by simp, hdisk₂.trans hdisk₁⟩
      · have hlt : i + 1 < cs.length := by omega
        rw [if_neg (hnext hlt).2, (hnext hlt).1]
        rw [← hdisk₁] at chain hfull
        obtain ⟨d', hrun, hdisk'⟩ := ih (i := i + 1) chain hlt hfull (by omega)
        exact ⟨d', hrun, hdisk'.trans hdisk₁⟩

/-- What a call that writes the first `k` bytes of a buffer does: these bytes are at the
position, the chain and the free clusters add up, and if a byte is missing no cluster is free. -/
structure Writes (info : FsInfo) (m m' : Store) (file file' : File) (cs ns : List Nat)
    (buffer : List UInt8) (k : Nat) : Prop where
  stored : Stored info m m' file file' cs ns (buffer.take k)
  le : k ≤ buffer.length
  card : (cs ++ ns).length + (freeSet info m').card = cs.length + (freeSet info m).card
  full : k < buffer.length → (freeSet info m').card = 0

/-- Nothing written is nothing changed. -/
theorem Stored.refl {m : Store} {file : File} {cs : List Nat} (handle : Handle info m file cs)
    (hposition : file.position ≤ file.dirent.size) : Stored info m m file file cs [] [] := by
  refine ⟨by simpa using handle, ?_, ?_, rfl, fun _ => rfl, by simp, fun _ _ _ _ _ _ _ _ => rfl⟩
  · simp
  · simp [hposition]

/-- The handle after a write to a file with a cluster. -/
theorem Wrote.stored (volume : Volume info) {m m' : Store} {file : File} {cs ns : List Nat}
    {bytes : List UInt8} (handle : Handle info m file cs) (hne : cs ≠ [])
    (hposition : file.position ≤ file.dirent.size)
    (wrote : Wrote info file.dirent.cluster m m' cs ns file.position bytes) :
    Stored info m m' file { file with
      position := file.position + bytes.length
      dirent := { file.dirent with
        size := max file.dirent.size (file.position + bytes.length) } } cs ns bytes := by
  have hfits := wrote.fits
  have hsize_le := handle.size_le
  have hlonger : cs.length * info.bytesPerCluster ≤ (cs ++ ns).length * info.bytesPerCluster := by
    refine Nat.mul_le_mul_right _ ?_
    rw [List.length_append]
    omega
  refine ⟨⟨handle.regular, .inr ⟨fun hnil => hne (List.append_eq_nil_iff.mp hnil).1, wrote.chain⟩,
    ?_⟩, wrote.chainBytes_eq volume hposition hsize_le, rfl, rfl, fun _ => rfl, wrote.fresh,
    wrote.othersKept volume⟩
  dsimp only
  omega

/-- `fs_write` once the file has a cluster. -/
theorem writeFrom_writes (reliable : Reliable ata disk) (volume : Volume info) {file : File}
    {cs : List Nat} {buffer : List UInt8} {d : σ} {fuel : Nat}
    (handle : Handle info (disk d) file cs) (hne : cs ≠ [])
    (hposition : file.position ≤ file.dirent.size) (hbuffer : buffer.length < 2 ^ 31)
    (hcluster : (file.position / info.bytesPerCluster + 1) * info.bytesPerCluster < 2 ^ 32)
    (hlt : file.position + buffer.length < 2 ^ 32)
    (hfuel : file.position + buffer.length < fuel) :
    ∃ r file' d' ns, writeFrom ata info fuel file buffer d = some (r, file', d') ∧
      Writes info (disk d) (disk d') file file' cs ns buffer r.toNat := by
  have chain : Chain info (disk d) file.dirent.cluster cs :=
    (handle.chain.resolve_left fun h => hne h.2).2
  have hpos := volume.bytesPerCluster_pos
  have hlength : 0 < cs.length := List.length_pos_iff.mpr hne
  have hfirst : cs[0] = file.dirent.cluster := by
    rw [← chain.linked.head_eq hne, List.head_eq_getElem]
  have hquotient := Nat.div_le_self file.position info.bytesPerCluster
  have hsize := handle.size_le
  have hend : file.position ≤ cs.length * info.bytesPerCluster := hposition.trans hsize
  have hseek := @seekToWrite_cases _ _ _ _ _ reliable volume file.position hcluster fuel 0 cs d
    chain hlength (Nat.zero_le _) hend (by omega)
  rw [Nat.zero_mul, hfirst] at hseek
  rcases hseek with ⟨-, c, d₁, ns, hseek, sought, hc⟩ | ⟨hfull, -⟩
  · have stands : Stands info (cs ++ ns) c (file.position % info.bytesPerCluster)
        file.position := by
      refine ⟨_, hc, Nat.mod_lt file.position hpos, ?_⟩
      rw [Nat.mul_comm]
      exact (Nat.div_add_mod _ _).symm
    obtain ⟨k, d₂, ns', hk, hloop, wrote, hall⟩ := writeLoop_cases reliable volume sought.chain
      (fun _ => stands) (by simpa using sought.fits) hlt (by omega : buffer.length < fuel)
    have whole := sought.trans volume (by simpa using wrote)
    rw [List.nil_append] at whole
    have htake : (buffer.take k).length = k := List.length_take_of_le hk
    have hcount : (toInt32 (buffer.length - (buffer.length - k)) : Int).toNat = k := by
      rw [Nat.sub_sub_self hk, toInt32_of_lt (by omega)]
      rfl
    have stored := whole.stored volume handle hne hposition
    rw [htake] at stored
    refine ⟨toInt32 (buffer.length - (buffer.length - k)), { file with
      position := file.position + k
      dirent := { file.dirent with size := max file.dirent.size (file.position + k) } }, d₂,
      ns ++ ns', ?_, ?_⟩
    · rw [writeFrom, hseek]
      simp only [hloop]
      split
      next hgrown => rw [Nat.max_eq_right (Nat.le_of_lt hgrown)]
      next hgrown => rw [Nat.max_eq_left (Nat.le_of_not_lt hgrown)]
    · rw [hcount]
      refine ⟨stored, hk, whole.card_add, fun hless => ?_⟩
      have hover := hall.resolve_left (Nat.ne_of_lt hless)
      have hfits := whole.fits
      have hcard := whole.card_add
      rw [htake] at hfits
      rw [sought.card_add, ← hcard] at hover
      -- the chain ends where the bytes do
      have hmul := Nat.le_of_mul_le_mul_right (hover.trans hfits) hpos
      omega
  · have hquotient' : file.position / info.bytesPerCluster ≤ cs.length :=
      Nat.div_le_of_le_mul (by rw [Nat.mul_comm]; exact hend)
    have hnone := @seekToWrite_full _ _ _ _ _ reliable volume file.position hcluster fuel 0 cs d
      chain hlength (by omega) (by omega) (by omega)
    rw [Nat.zero_mul, hfirst] at hnone
    obtain ⟨d₁, hrun, hdisk⟩ := hnone
    refine ⟨FS_ERROR, file, d₁, [], by rw [writeFrom, hrun], ?_⟩
    rw [hdisk]
    have hcount : FS_ERROR.toNat = 0 := rfl
    rw [hcount]
    exact ⟨Stored.refl handle hposition, Nat.zero_le _, by rw [List.append_nil],
      fun _ => by omega⟩

/-- **`fs_write` on a disk that works, full or not**: the first bytes of the buffer, as many as
it returns, are at the position; no other chain is touched, and no cluster is lost. -/
theorem fsWrite_writes (reliable : Reliable ata disk) (volume : Volume info) {file : File}
    {cs : List Nat} {buffer : List UInt8} {d : σ} (handle : Handle info (disk d) file cs)
    (hposition : file.position ≤ file.dirent.size) (hbuffer : buffer.length < 2 ^ 31)
    (hcluster : (file.position / info.bytesPerCluster + 1) * info.bytesPerCluster < 2 ^ 32)
    (hlt : file.position + buffer.length < 2 ^ 32)
    {fuel : Nat} (hfuel : file.position + buffer.length < fuel) :
    ∃ r file' d' ns, fsWrite ata info fuel file buffer d = some (r, file', d') ∧
      Writes info (disk d) (disk d') file file' cs ns buffer r.toNat := by
  rw [fsWrite, if_neg volume.not_unmounted, if_neg (not_not.mpr handle.regular)]
  rcases handle.chain with ⟨hnone, rfl⟩ | ⟨hne, chain⟩
  · -- an empty file gets its first cluster
    have hempty : file.dirent.size = 0 := by
      have := handle.size_le
      rw [List.length_nil, Nat.zero_mul] at this
      omega
    have hzero : file.position = 0 := by omega
    rw [if_pos hnone]
    rcases Nat.eq_zero_or_pos (freeSet info (disk d)).card with hfull | hsome
    · obtain ⟨d₁, halloc, hdisk⟩ := allocate_of_full reliable volume hfull
      refine ⟨FS_ERROR, file, d₁, [], ?_, ?_⟩
      · rw [halloc]
        dsimp only
        rw [if_pos rfl]
      · have hcount : FS_ERROR.toNat = 0 := rfl
        rw [hcount, hdisk]
        exact ⟨Stored.refl handle hposition, Nat.zero_le _, by rw [List.append_nil],
          fun _ => hfull⟩
    obtain ⟨new, d₁, halloc, hmem, hnew, hdisk₁⟩ := allocate_of_free reliable volume hsome
    have chain := Chain.single volume hmem
    rw [← hdisk₁] at chain
    have hcard : (freeSet info (disk d₁)).card + 1 = (freeSet info (disk d)).card := by
      rw [hdisk₁, freeSet_setFat (by decide)]
      exact Finset.card_erase_add_one hmem
    rw [halloc]
    dsimp only
    rw [if_neg hnew]
    have handle₁ : Handle info (disk d₁)
        { file with dirent := { file.dirent with cluster := new }, currentCluster := new } [new] :=
      ⟨handle.regular, .inr ⟨List.cons_ne_nil _ _, chain⟩, by
        dsimp only
        omega⟩
    obtain ⟨r, file', d', ns, hrun, writes⟩ := @writeFrom_writes _ _ _ _ reliable volume _ _ buffer
      _ fuel handle₁ (List.cons_ne_nil _ _) hposition hbuffer hcluster hlt hfuel
    obtain ⟨stored, hle, hadd, hall⟩ := writes
    refine ⟨r, file', d', [new] ++ ns, hrun, ⟨stored.handle, ?_, stored.size, stored.position,
      fun h => absurd rfl h, ?_, ?_⟩, hle, ?_, hall⟩
    · have hbytes := stored.bytes
      simpa [fileBytes, chainBytes, hempty, hzero] using hbytes
    · intro c hc
      rcases List.mem_append.mp hc with hone | hmore
      · rwa [List.mem_singleton.mp hone]
      · have hfresh := stored.fresh c hmore
        rw [hdisk₁, freeSet_setFat (by decide)] at hfresh
        exact Finset.mem_of_mem_erase hfresh
    · have hothers := stored.others
      rw [hdisk₁] at hothers
      exact .of_free hmem hothers
    · rw [List.nil_append, List.length_nil, Nat.zero_add, hadd, List.length_singleton]
      omega
  · have hused : ¬ file.dirent.cluster = 0 := by
      have hfirst := chain.linked.head_eq hne
      have := (chain.valid _ (List.head_mem hne)).1
      omega
    rw [if_neg hused]
    exact writeFrom_writes reliable volume handle hne hposition hbuffer hcluster hlt hfuel

/-! ### Several handles -/

/-- The handles that are open, and the disk. -/
structure Handles (ι σ : Type) where
  files : ι → File
  device : σ

def Handles.set [DecidableEq ι] (h : Handles ι σ) (i : ι) (file : File) (device : σ) :
    Handles ι σ := ⟨Function.update h.files i file, device⟩

@[simp] theorem Handles.device_set [DecidableEq ι] (h : Handles ι σ) (i : ι) (file : File) (d : σ) :
    (h.set i file d).device = d := rfl

@[simp] theorem Handles.files_set [DecidableEq ι] (h : Handles ι σ) (i : ι) (file : File) (d : σ) :
    (h.set i file d).files i = file := Function.update_self _ _ _

theorem Handles.files_set_of_ne [DecidableEq ι] (h : Handles ι σ) {i j : ι} (hne : j ≠ i)
    (file : File) (d : σ) : (h.set i file d).files j = h.files j := Function.update_of_ne hne _ _

/-- A call through a handle that returns. A file stays below `2 ^ 32` bytes by a cluster, as the
positions of 32 bits want it, and a count fits the `int` that is returned. -/
inductive HandleStep [DecidableEq ι] (ata : Ata σ) (info : FsInfo) (fuel : Nat) :
    Handles ι σ → Event ι UInt8 → Handles ι σ → Prop where
  | seek (h : Handles ι σ) (i : ι) (position : Nat) :
      HandleStep ata info fuel h (.seek i position)
        (h.set i (fsSeek info (h.files i) position).2 h.device)
  | read {h : Handles ι σ} {i : ι} {n : Nat} {r : Int} {bytes : List UInt8} {file : File} {d : σ} :
      n < 2 ^ 31 → fsRead ata info fuel (h.files i) n h.device = some (r, bytes, file, d) →
      HandleStep ata info fuel h (.read i n bytes) (h.set i file d)
  | write {h : Handles ι σ} {i : ι} {buffer : List UInt8} {r : Int} {file : File} {d : σ} :
      buffer.length < 2 ^ 31 →
      (h.files i).position + buffer.length + info.bytesPerCluster < 2 ^ 32 →
      fsWrite ata info fuel (h.files i) buffer h.device = some (r, file, d) →
      HandleStep ata info fuel h (.write i buffer r.toNat) (h.set i file d)

/-- The chains of the handles' files: each is well formed, and no two of them meet. -/
structure Chained (info : FsInfo) (disk : σ → Store) (h : Handles ι σ) (chains : ι → List Nat) :
    Prop where
  handle : ∀ i, Handle info (disk h.device) (h.files i) (chains i)
  position_le : ∀ i, (h.files i).position ≤ (h.files i).dirent.size
  size_lt : ∀ i, (h.files i).dirent.size + info.bytesPerCluster < 2 ^ 32
  disjoint : ∀ i j, i ≠ j → (chains i).Disjoint (chains j)

/-- A file as its handle sees it. -/
def openFile (info : FsInfo) (m : Store) (file : File) (cs : List Nat) : OpenFile UInt8 :=
  ⟨fileBytes info m file cs, file.position⟩

/-- The handles as open files. -/
def openFiles (info : FsInfo) (disk : σ → Store) (h : Handles ι σ) (chains : ι → List Nat) :
    ι → OpenFile UInt8 := fun i => openFile info (disk h.device) (h.files i) (chains i)

/-- A file whose clusters keep what they have is the same file. -/
theorem Handle.kept {m m' : Store} {file : File} {cs : List Nat}
    (handle : Handle info m file cs) (same : ∀ c ∈ cs, SameCluster info m m' c) :
    Handle info m' file cs ∧ fileBytes info m' file cs = fileBytes info m file cs := by
  have hfat : ∀ c ∈ cs, fat info m' c = fat info m c := fun c hc =>
    fat_congr fun a ha => same c hc a (Or.inl ha)
  refine ⟨⟨handle.regular, handle.chain.imp_right fun h => ⟨h.1, h.2.congr hfat⟩,
    handle.size_le⟩, ?_⟩
  refine List.map_congr_left fun k hk => ?_
  have hin : k < cs.length * info.bytesPerCluster :=
    lt_of_lt_of_le (List.mem_range.mp hk) handle.size_le
  have hpos : 0 < info.bytesPerCluster := Nat.pos_of_mul_pos_left (Nat.zero_lt_of_lt hin)
  have hmod := Nat.mod_lt k hpos
  rw [location_eq (index_lt hin)]
  exact same _ (List.getElem_mem (index_lt hin)) _ (Or.inr (by omega))

/-- What a call through the handle `i` does, with the clusters `ns` that it adds. -/
structure Effect [DecidableEq ι] (info : FsInfo) (disk : σ → Store) (h : Handles ι σ)
    (event : Event ι UInt8) (h' : Handles ι σ) (cs ns : List Nat) (i : ι) : Prop where
  files : ∀ j, j ≠ i → h'.files j = h.files j
  handle : Handle info (disk h'.device) (h'.files i) (cs ++ ns)
  position_le : (h'.files i).position ≤ (h'.files i).dirent.size
  size_lt : (h'.files i).dirent.size + info.bytesPerCluster < 2 ^ 32
  fresh : ∀ c ∈ ns, c ∈ freeSet info (disk h.device)
  others : OthersKept info (disk h.device) (disk h'.device) cs
  card : (cs ++ ns).length + (freeSet info (disk h'.device)).card
    = cs.length + (freeSet info (disk h.device)).card
  step : ∀ files : ι → OpenFile UInt8, files i = openFile info (disk h.device) (h.files i) cs →
    Files.Step files event
      (Function.update files i (openFile info (disk h'.device) (h'.files i) (cs ++ ns)))
  full : ∀ j buffer k, event = .write j buffer k → k < buffer.length →
    (freeSet info (disk h'.device)).card = 0

section Calls

variable {h h' : Handles ι σ} {chains : ι → List Nat} {event : Event ι UInt8} {fuel : Nat}

theorem Chained.cluster_lt (chained : Chained info disk h chains) (i : ι) :
    ((h.files i).position / info.bytesPerCluster + 1) * info.bytesPerCluster < 2 ^ 32 := by
  have hdiv := Nat.div_mul_le_self (h.files i).position info.bytesPerCluster
  have hposition := chained.position_le i
  have hsize := chained.size_lt i
  rw [Nat.add_mul, Nat.one_mul]
  omega

variable [DecidableEq ι]

theorem seek_effect (volume : Volume info) (chained : Chained info disk h chains) (i : ι)
    (position : Nat) :
    Effect info disk h (.seek i position)
      (h.set i (fsSeek info (h.files i) position).2 h.device) (chains i) [] i := by
  have hseek : (fsSeek info (h.files i) position).2
      = { h.files i with position := min position (h.files i).dirent.size } := by
    rw [fsSeek, if_neg volume.not_unmounted]
    dsimp only
    split
    next hpast => rw [Nat.min_eq_right (Nat.le_of_lt hpast)]
    next hpast => rw [Nat.min_eq_left (Nat.le_of_not_lt hpast)]
  have handle := chained.handle i
  rw [hseek]
  refine ⟨fun j hj => h.files_set_of_ne hj _ _, ?_, ?_, ?_, by simp, fun _ _ _ _ _ _ _ _ => rfl,
    by simp, fun files hfile => ?_, fun _ _ _ heq => by cases heq⟩
  · rw [Handles.files_set, Handles.device_set, List.append_nil]
    exact ⟨handle.regular, handle.chain, handle.size_le⟩
  · rw [Handles.files_set]
    exact Nat.min_le_right _ _
  · rw [Handles.files_set]
    exact chained.size_lt i
  · rw [Handles.files_set, Handles.device_set, List.append_nil]
    have hstep := Files.Step.seek files i position
    rw [hfile, OpenFile.seek, openFile] at hstep
    dsimp only at hstep
    rw [fileBytes_length] at hstep
    exact hstep

theorem read_effect (reliable : Reliable ata disk) (volume : Volume info)
    (chained : Chained info disk h chains) (hfuel : 2 ^ 32 ≤ fuel) {i : ι} {n : Nat} {r : Int}
    {bytes : List UInt8} {file : File} {d : σ} (hn : n < 2 ^ 31)
    (run : fsRead ata info fuel (h.files i) n h.device = some (r, bytes, file, d)) :
    Effect info disk h (.read i n bytes) (h.set i file d) (chains i) [] i := by
  have handle := chained.handle i
  have hposition := chained.position_le i
  have hsize := chained.size_lt i
  obtain ⟨d', hread, hdisk⟩ := @fs_read_spec _ _ _ _ _ reliable volume (h.files i) n h.device handle
    (by omega) hposition (chained.cluster_lt i) (by omega) fuel (by omega)
  rw [run] at hread
  cases hread
  refine ⟨fun j hj => h.files_set_of_ne hj _ _, ?_, ?_, ?_, by simp, ?_, ?_,
    fun files hfile => ?_, fun _ _ _ heq => by cases heq⟩
  · rw [Handles.files_set, Handles.device_set, List.append_nil, hdisk]
    exact ⟨handle.regular, handle.chain, handle.size_le⟩
  · rw [Handles.files_set]
    dsimp only
    omega
  · rw [Handles.files_set]
    exact hsize
  · rw [Handles.device_set, hdisk]
    exact fun _ _ _ _ _ _ _ _ => rfl
  · rw [Handles.device_set, hdisk, List.append_nil]
  · rw [Handles.files_set, Handles.device_set, List.append_nil, hdisk]
    have hstep := Files.Step.read files i n
    have hlength : (((fileBytes info (disk h.device) (h.files i) (chains i)).drop
        (h.files i).position).take n).length
          = min n ((h.files i).dirent.size - (h.files i).position) := by
      rw [List.length_take, List.length_drop, fileBytes_length]
    rw [hfile, OpenFile.read, OpenFile.advance, openFile] at hstep
    dsimp only at hstep
    rw [hlength] at hstep
    exact hstep

theorem write_effect (reliable : Reliable ata disk) (volume : Volume info)
    (chained : Chained info disk h chains) (hfuel : 2 ^ 32 ≤ fuel) {i : ι} {buffer : List UInt8}
    {r : Int} {file : File} {d : σ} (hbuffer : buffer.length < 2 ^ 31)
    (hend : (h.files i).position + buffer.length + info.bytesPerCluster < 2 ^ 32)
    (run : fsWrite ata info fuel (h.files i) buffer h.device = some (r, file, d)) :
    ∃ ns, Effect info disk h (.write i buffer r.toNat) (h.set i file d) (chains i) ns i := by
  have hposition := chained.position_le i
  have hsize := chained.size_lt i
  obtain ⟨r', file', d', ns, hwrite, writes⟩ := @fsWrite_writes _ _ _ _ reliable volume _ _ buffer _
    (chained.handle i) hposition hbuffer (chained.cluster_lt i) (by omega) fuel (by omega)
  rw [run] at hwrite
  cases hwrite
  have stored := writes.stored
  have htake : (buffer.take r.toNat).length = r.toNat := List.length_take_of_le writes.le
  have hsize' := stored.size
  have hposition' := stored.position
  have hle := writes.le
  rw [htake] at hsize' hposition'
  refine ⟨ns, fun j hj => h.files_set_of_ne hj _ _, ?_, ?_, ?_, stored.fresh, stored.others,
    writes.card, fun files hfile => ?_, fun j buffer' k heq hless => ?_⟩
  · rw [Handles.files_set]
    exact stored.handle
  · rw [Handles.files_set]
    omega
  · rw [Handles.files_set]
    omega
  · rw [Handles.files_set]
    have hstep := Files.Step.write files i writes.le
    rw [hfile, OpenFile.write, openFile] at hstep
    dsimp only at hstep
    rw [← stored.bytes, ← stored.position] at hstep
    exact hstep
  · cases heq
    exact writes.full hless

theorem HandleStep.effect (reliable : Reliable ata disk) (volume : Volume info)
    (chained : Chained info disk h chains) (hfuel : 2 ^ 32 ≤ fuel)
    (call : HandleStep ata info fuel h event h') :
    ∃ i ns, Effect info disk h event h' (chains i) ns i := by
  cases call with
  | seek i position => exact ⟨i, [], seek_effect volume chained i position⟩
  | @read i n r bytes file d hn run =>
      exact ⟨i, [], read_effect reliable volume chained hfuel hn run⟩
  | @write i buffer r file d hbuffer hend run =>
      obtain ⟨ns, effect⟩ := write_effect reliable volume chained hfuel hbuffer hend run
      exact ⟨i, ns, effect⟩

/-! ### Every run -/

/-- The chains of the other handles are what they were. -/
theorem Effect.kept {i : ι} {ns : List Nat} (effect : Effect info disk h event h' (chains i) ns i)
    (chained : Chained info disk h chains) {j : ι} (hj : j ≠ i) :
    Handle info (disk h'.device) (h'.files j) (chains j) ∧
      openFile info (disk h'.device) (h'.files j) (chains j)
        = openFile info (disk h.device) (h.files j) (chains j) := by
  have handle := chained.handle j
  have same : ∀ c ∈ chains j, SameCluster info (disk h.device) (disk h'.device) c := by
    rcases handle.chain with ⟨-, hnil⟩ | ⟨-, chain⟩
    · simp [hnil]
    · exact effect.others _ _ chain (chained.disjoint j i hj)
  obtain ⟨handle', hbytes⟩ := handle.kept same
  rw [effect.files j hj, openFile, openFile, hbytes]
  exact ⟨handle', rfl⟩

theorem Effect.chained {i : ι} {ns : List Nat}
    (effect : Effect info disk h event h' (chains i) ns i)
    (chained : Chained info disk h chains) :
    Chained info disk h' (Function.update chains i (chains i ++ ns)) := by
  -- a cluster that was free is in no chain
  have hfresh : ∀ j, (chains j).Disjoint ns := by
    intro j c hc hc'
    rcases (chained.handle j).chain with ⟨-, hnil⟩ | ⟨-, chain⟩
    · simp [hnil] at hc
    · exact chain.fat_ne_zero hc (mem_freeSet.mp (effect.fresh c hc')).2
  have hapart : ∀ j, j ≠ i → (chains j).Disjoint (chains i ++ ns) := by
    intro j hj c hc hc'
    rcases List.mem_append.mp hc' with hold | hnew
    · exact chained.disjoint j i hj hc hold
    · exact hfresh j hc hnew
  refine ⟨fun j => ?_, fun j => ?_, fun j => ?_, fun j k hjk => ?_⟩
  · by_cases hj : j = i
    · subst hj
      rw [Function.update_self]
      exact effect.handle
    · rw [Function.update_of_ne hj]
      exact (effect.kept chained hj).1
  · by_cases hj : j = i
    · subst hj
      exact effect.position_le
    · rw [effect.files j hj]
      exact chained.position_le j
  · by_cases hj : j = i
    · subst hj
      exact effect.size_lt
    · rw [effect.files j hj]
      exact chained.size_lt j
  · by_cases hj : j = i
    · subst hj
      rw [Function.update_self, Function.update_of_ne (Ne.symm hjk)]
      exact (hapart k (Ne.symm hjk)).symm
    · by_cases hk : k = i
      · subst hk
        rw [Function.update_self, Function.update_of_ne hj]
        exact hapart j hj
      · rw [Function.update_of_ne hj, Function.update_of_ne hk]
        exact chained.disjoint j k hjk

/-- A call is a step of the open files. -/
theorem Effect.openFiles_step {i : ι} {ns : List Nat}
    (effect : Effect info disk h event h' (chains i) ns i)
    (chained : Chained info disk h chains) :
    Files.Step (openFiles info disk h chains) event
      (openFiles info disk h' (Function.update chains i (chains i ++ ns))) := by
  have hfiles : openFiles info disk h' (Function.update chains i (chains i ++ ns))
      = Function.update (openFiles info disk h chains) i
        (openFile info (disk h'.device) (h'.files i) (chains i ++ ns)) := by
    funext j
    by_cases hj : j = i
    · subst hj
      rw [Function.update_self, openFiles, Function.update_self]
    · rw [Function.update_of_ne hj, openFiles, Function.update_of_ne hj]
      exact (effect.kept chained hj).2
  rw [hfiles]
  exact effect.step _ rfl

/-- Between two states of the disk: the chains of the handles have only grown, by clusters that
were free and without a loss; every other chain is what it was, and apart from them. -/
structure Accounts [Fintype ι] (info : FsInfo) (m m' : Store) (chains chains' : ι → List Nat) :
    Prop where
  grows : ∀ i, chains i <+: chains' i
  card : ∑ i, (chains' i).length + (freeSet info m').card
    = ∑ i, (chains i).length + (freeSet info m).card
  others : ∀ start cs, Chain info m start cs → (∀ i, cs.Disjoint (chains i)) →
    Chain info m' start cs ∧ (∀ i, cs.Disjoint (chains' i)) ∧ ∀ c ∈ cs, SameCluster info m m' c

end Calls

section Accounting

variable [Fintype ι] {h h' : Handles ι σ} {chains : ι → List Nat} {event : Event ι UInt8}
  {fuel : Nat}

theorem Accounts.refl (m : Store) (chains : ι → List Nat) : Accounts info m m chains chains :=
  ⟨fun _ => List.prefix_rfl, rfl, fun _ _ chain hdisjoint => ⟨chain, hdisjoint, fun _ _ _ _ => rfl⟩⟩

theorem Accounts.trans {m m' m'' : Store} {chains chains' chains'' : ι → List Nat}
    (first : Accounts info m m' chains chains') (second : Accounts info m' m'' chains' chains'') :
    Accounts info m m'' chains chains'' := by
  refine ⟨fun i => (first.grows i).trans (second.grows i), second.card.trans first.card,
    fun start cs chain hdisjoint => ?_⟩
  obtain ⟨chain', hdisjoint', same⟩ := first.others start cs chain hdisjoint
  obtain ⟨chain'', hdisjoint'', same'⟩ := second.others start cs chain' hdisjoint'
  exact ⟨chain'', hdisjoint'', fun c hc a ha => (same' c hc a ha).trans (same c hc a ha)⟩

variable [DecidableEq ι]

end Accounting

section Refinement

variable [DecidableEq ι] {h h' : Handles ι σ} {chains : ι → List Nat} {fuel : Nat}

/-- No call gets stuck. -/
theorem Chained.returns (reliable : Reliable ata disk) (volume : Volume info)
    (hfuel : 2 ^ 32 ≤ fuel) (chained : Chained info disk h chains) (i : ι) :
    (∀ n < 2 ^ 31, ∃ bytes h', HandleStep ata info fuel h (.read i n bytes) h') ∧
    ∀ buffer : List UInt8, buffer.length < 2 ^ 31 →
      (h.files i).position + buffer.length + info.bytesPerCluster < 2 ^ 32 →
      ∃ k h', HandleStep ata info fuel h (.write i buffer k) h' := by
  have hposition := chained.position_le i
  have hsize := chained.size_lt i
  refine ⟨fun n hn => ?_, fun buffer hbuffer hend => ?_⟩
  · obtain ⟨d, hread, -⟩ := @fs_read_spec _ _ _ _ _ reliable volume (h.files i) n h.device
      (chained.handle i) (by omega) hposition (chained.cluster_lt i) (by omega) fuel (by omega)
    exact ⟨_, _, .read hn hread⟩
  · obtain ⟨r, file, d, ns, hwrite, -⟩ := @fsWrite_writes _ _ _ _ reliable volume _ _ buffer _
      (chained.handle i) hposition hbuffer (chained.cluster_lt i) (by omega) fuel (by omega)
    exact ⟨_, _, .write hbuffer hend hwrite⟩

theorem Chained.openFiles_run (reliable : Reliable ata disk) (volume : Volume info)
    (hfuel : 2 ^ 32 ≤ fuel) {events : List (Event ι UInt8)} (chained : Chained info disk h chains)
    (run : Run (HandleStep ata info fuel) h events h') :
    ∃ chains', Chained info disk h' chains' ∧
      Run Files.Step (openFiles info disk h chains) events (openFiles info disk h' chains') := by
  obtain ⟨files, hrun, chains', chained', rfl⟩ := run.simulation
    (R := fun h files => ∃ chains, Chained info disk h chains ∧ files = openFiles info disk h chains)
    (by
      rintro h event h' _ ⟨chains, chained, rfl⟩ call
      obtain ⟨i, ns, effect⟩ := call.effect reliable volume chained hfuel
      exact ⟨_, effect.openFiles_step chained, _, effect.chained chained, rfl⟩)
    (a := openFiles info disk h chains) ⟨chains, chained, rfl⟩
  exact ⟨chains', chained', hrun⟩

/-- What a write has stored is read back through its handle, after any calls through others. -/
theorem Chained.read_written (reliable : Reliable ata disk) (volume : Volume info)
    (hfuel : 2 ^ 32 ≤ fuel) (chained : Chained info disk h chains) {i : ι} {buffer got : List UInt8}
    {k : Nat} {between : List (Event ι UInt8)} (hothers : ∀ e ∈ between, i ≠ e.handle)
    (run : Run (HandleStep ata info fuel) h (.write i buffer k :: (between
      ++ [.seek i (h.files i).position, .read i k got])) h') : got = buffer.take k := by
  obtain ⟨chains', -, hrun⟩ := chained.openFiles_run reliable volume hfuel run
  refine Run.read_written ?_ hrun hothers
  rw [openFiles, openFile, fileBytes_length]
  exact chained.position_le i

end Refinement

/-! ### Two empty files -/

end Curnel.Filesystem
