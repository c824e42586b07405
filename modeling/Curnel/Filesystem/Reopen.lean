/-
Writing to a file through a handle, closing it and opening it again.

`fs_write` extends the chain of the file and the size in the handle, but it leaves the
directory entry alone, so `fs_open` finds the size and the first cluster that were there
before. What is written is found again as long as it lies within that size
(`reopens_iff`).
-/

import Curnel.Filesystem.Directory
import Curnel.Lib.Run

namespace Curnel.Filesystem

open Lib Bytes Word

variable {σ : Type} {ata : Ata σ} {disk : σ → Store} {info : FsInfo}

/-! ### More fuel -/

theorem seekToWrite_mono {position fuel fuel' pos cluster : Nat} {d : σ} {r : Option Nat × σ}
    (h : seekToWrite ata info position fuel pos cluster d = some r) (hle : fuel ≤ fuel') :
    seekToWrite ata info position fuel' pos cluster d = some r := by
  induction fuel generalizing fuel' pos cluster d with
  | zero => cases h
  | succ fuel ih =>
      obtain ⟨more, rfl⟩ : ∃ more, fuel' = more + 1 := ⟨fuel' - 1, by omega⟩
      have hmore : fuel ≤ more := Nat.le_of_succ_le_succ hle
      rw [seekToWrite] at h ⊢
      by_cases hreached : wadd 32 pos info.bytesPerCluster ≤ position
      · rw [if_pos hreached] at h ⊢
        dsimp only at h ⊢
        split at h
        next hend =>
          rw [if_pos hend]
          split at h
          next hfull => rwa [if_pos hfull]
          next hfree =>
            rw [if_neg hfree]
            exact ih h hmore
        next hend =>
          rw [if_neg hend]
          exact ih h hmore
      · rwa [if_neg hreached] at h ⊢

theorem writeLoop_mono {fuel fuel' cluster o p : Nat} {src : List UInt8} {d : σ} {r : Written × σ}
    (h : writeLoop ata info fuel cluster o p src d = some r) (hle : fuel ≤ fuel') :
    writeLoop ata info fuel' cluster o p src d = some r := by
  induction fuel generalizing fuel' cluster o p src d with
  | zero => cases h
  | succ fuel ih =>
      obtain ⟨more, rfl⟩ : ∃ more, fuel' = more + 1 := ⟨fuel' - 1, by omega⟩
      have hmore : fuel ≤ more := Nat.le_of_succ_le_succ hle
      rw [writeLoop] at h ⊢
      dsimp only at h ⊢
      generalize (if wsub 32 info.bytesPerSector (o % info.bytesPerSector) > src.length then
        src.length else wsub 32 info.bytesPerSector (o % info.bytesPerSector)) = n at h ⊢
      split at h
      next hsrc =>
        rw [if_pos hsrc]
        split at h
        next => exact h
        next =>
          split at h
          next => exact h
          next =>
            split at h
            next hfull =>
              rw [if_pos hfull]
              split at h
              next hend =>
                rw [if_pos hend]
                split at h
                next hnone => rwa [if_pos hnone]
                next hfree =>
                  rw [if_neg hfree]
                  exact ih h hmore
              next hend =>
                rw [if_neg hend]
                exact ih h hmore
            next hfull =>
              rw [if_neg hfull]
              exact ih h hmore
      next hsrc => rwa [if_neg hsrc]

theorem writeFrom_mono {fuel fuel' : Nat} {file : File} {buffer : List UInt8} {d : σ}
    {r : Int × File × σ} (h : writeFrom ata info fuel file buffer d = some r)
    (hle : fuel ≤ fuel') : writeFrom ata info fuel' file buffer d = some r := by
  rw [writeFrom] at h ⊢
  split at h
  next => cases h
  next hseek =>
    rw [seekToWrite_mono hseek hle]
    exact h
  next hseek =>
    rw [seekToWrite_mono hseek hle]
    dsimp only
    split at h
    next => cases h
    next hloop =>
      rw [writeLoop_mono hloop hle]
      exact h
    next hloop =>
      rw [writeLoop_mono hloop hle]
      exact h

/-- A call that returns returns the same with more fuel. -/
theorem fsWrite_mono {fuel fuel' : Nat} {file : File} {buffer : List UInt8} {d : σ}
    {r : Int × File × σ} (h : fsWrite ata info fuel file buffer d = some r)
    (hle : fuel ≤ fuel') : fsWrite ata info fuel' file buffer d = some r := by
  rw [fsWrite] at h ⊢
  split at h
  next hmounted => rwa [if_pos hmounted]
  next hmounted =>
    rw [if_neg hmounted]
    split at h
    next hdirectory => rwa [if_pos hdirectory]
    next hdirectory =>
      rw [if_neg hdirectory]
      split at h
      next hnone =>
        rw [if_pos hnone]
        dsimp only at h ⊢
        split at h
        next hfull => rwa [if_pos hfull]
        next hfree =>
          rw [if_neg hfree]
          exact writeFrom_mono h hle
      next hsome =>
        rw [if_neg hsome]
        exact writeFrom_mono h hle

/-! ### What a call that succeeds says -/

/-- Where the cluster of the position ends at 2³² or later, the loop that seeks it has no
end: the 32-bit sum is never past the position. -/
theorem seekToWrite_wraps (hdvd : info.bytesPerCluster ∣ 2 ^ 32) {position : Nat}
    (hover : 2 ^ 32 ≤ (position / info.bytesPerCluster + 1) * info.bytesPerCluster)
    {fuel pos cluster : Nat} (hpos : info.bytesPerCluster ∣ pos) {d d' : σ} {c : Nat} :
    seekToWrite ata info position fuel pos cluster d ≠ some (some c, d') := by
  induction fuel generalizing pos cluster d with
  | zero =>
      intro h
      cases h
  | succ fuel ih =>
      have hnext : info.bytesPerCluster ∣ wadd 32 pos info.bytesPerCluster := by
        rw [wadd, Nat.dvd_mod_iff hdvd]
        exact Nat.dvd_add (Nat.dvd_refl _) hpos
      have hreached : wadd 32 pos info.bytesPerCluster ≤ position := by
        have hlt : wadd 32 pos info.bytesPerCluster < 2 ^ 32 := Nat.mod_lt _ (by decide)
        have hdiv := Nat.div_mul_le_self position info.bytesPerCluster
        obtain ⟨k, hk⟩ := hnext
        obtain ⟨l, hl⟩ := hdvd
        rw [Nat.mul_comm] at hdiv
        rw [hl, Nat.mul_comm _ info.bytesPerCluster] at hover
        rw [hk, hl] at hlt
        have hpositive : 0 < info.bytesPerCluster := by
          rcases Nat.eq_zero_or_pos info.bytesPerCluster with hzero | h
          · rw [hzero] at hlt
            omega
          · exact h
        have hkl := Nat.lt_of_mul_lt_mul_left hlt
        have hlq := Nat.le_of_mul_le_mul_left hover hpositive
        rw [hk]
        exact le_trans (Nat.mul_le_mul_left _ (by omega)) hdiv
      rw [seekToWrite, if_pos hreached]
      dsimp only
      split
      · split
        · intro h
          cases h
        · exact ih hnext
      · exact ih hnext

/-- What a call returns when it writes all of the buffer says that the buffer is short, and
that the cluster of the position ends below 2³². -/
theorem fsWrite_of_length (volume : Volume info) (hdvd : info.bytesPerCluster ∣ 2 ^ 32)
    {fuel : Nat} {file file' : File} {buffer : List UInt8} {d d' : σ}
    (h : fsWrite ata info fuel file buffer d = some ((buffer.length : Int), file', d')) :
    buffer.length < 2 ^ 31 ∧
      (file.position / info.bytesPerCluster + 1) * info.bytesPerCluster < 2 ^ 32 := by
  have hfrom : ∀ {file : File} {d : σ},
      writeFrom ata info fuel file buffer d = some ((buffer.length : Int), file', d') →
      buffer.length < 2 ^ 31 ∧
        (file.position / info.bytesPerCluster + 1) * info.bytesPerCluster < 2 ^ 32 := by
    intro file d h
    rw [writeFrom] at h
    split at h
    next => cases h
    next =>
      have heq := congrArg Prod.fst (Option.some.inj h)
      exact absurd heq (FS_ERROR_ne _)
    next cluster d₁ hseek =>
      have hcluster : (file.position / info.bytesPerCluster + 1) * info.bytesPerCluster
          < 2 ^ 32 := by
        by_contra hover
        exact seekToWrite_wraps hdvd (Nat.le_of_not_lt hover) (Nat.dvd_zero _) hseek
      refine ⟨?_, hcluster⟩
      split at h
      next => cases h
      next =>
        have heq := congrArg Prod.fst (Option.some.inj h)
        exact absurd heq (FS_ERROR_ne _)
      next position bytesLeft d₂ hloop =>
        have heq := congrArg Prod.fst (Option.some.inj h)
        have hlt := toInt32_lt (buffer.length - bytesLeft)
        dsimp only at heq
        omega
  have hmounted := volume.not_unmounted
  rw [fsWrite, if_neg hmounted] at h
  split at h
  next =>
    have heq := congrArg Prod.fst (Option.some.inj h)
    exact absurd heq (FS_ERROR_ne _)
  next =>
    split at h
    next =>
      dsimp only at h
      split at h
      next =>
        have heq := congrArg Prod.fst (Option.some.inj h)
        exact absurd heq (FS_ERROR_ne _)
      next => exact @hfrom { file with
        dirent := { file.dirent with cluster := (fat32AllocateCluster ata info d).1 }
        currentCluster := (fat32AllocateCluster ata info d).1 } _ h
    next => exact hfrom h

/-! ### Sessions -/

/-- An open handle, what its file ought to hold, and the disk. -/
structure Session (σ : Type) where
  file : File
  content : List UInt8
  d : σ

/-- The calls on an open handle that move it or change its file. -/
inductive Call where
  | seek (position : Nat)
  | write (buffer : List UInt8)

/-- A call that succeeds. A write replaces the bytes from the position on. -/
inductive Step (ata : Ata σ) (info : FsInfo) : Session σ → Call → Session σ → Prop where
  | seek {s : Session σ} {position : Nat} {file : File} :
      fsSeek info s.file position = (FS_SUCCESS, file) →
      Step ata info s (.seek position) { s with file := file }
  | write {s : Session σ} {buffer : List UInt8} {fuel : Nat} {file : File} {d : σ} :
      fsWrite ata info fuel s.file buffer s.d = some ((buffer.length : Int), file, d) →
      Step ata info s (.write buffer)
        { file := file
          content := s.content.take s.file.position ++ buffer
            ++ s.content.drop (s.file.position + buffer.length)
          d := d }

/-- Closing the handle and opening the path again gives a handle that describes the content,
and reads it. -/
def Reopens (ata : Ata σ) (disk : σ → Store) (info : FsInfo) (path : List UInt8)
    (s : Session σ) : Prop :=
  fsClose s.file = FS_SUCCESS ∧
    ∀ blank, ∃ file d' cs, fsOpen ata info path blank s.d = (FS_SUCCESS, file, d') ∧
      Handle info (disk d') file cs ∧ file.dirent.size = s.content.length ∧
      ∀ n fuel, n < 2 ^ 64 → s.content.length < fuel → ∃ file' d'',
        fsRead ata info fuel file n d'
          = some (toInt32 (min n s.content.length), s.content.take n, file', d'')

/-- A write ends within the first `size` bytes of the file. -/
def Within (size : Nat) (s : Session σ) : Call → Prop
  | .seek _ => True
  | .write buffer => s.file.position + buffer.length ≤ size

/-- What a session of the file with directory entry `dirent` keeps. -/
structure Session.Good (disk : σ → Store) (info : FsInfo) (path : List UInt8) (dirent : Dirent)
    (roots : List Nat) (s : Session σ) (cs : List Nat) : Prop where
  handle : Handle info (disk s.d) s.file cs
  content : s.content = fileBytes info (disk s.d) s.file cs
  position : s.file.position ≤ s.file.dirent.size
  size_lt : s.file.dirent.size < 2 ^ 32
  entry : lookup info (disk s.d) (path.dropWhile (· = 0x2F)) = some dirent
  cluster : dirent.cluster ≠ 0 → s.file.dirent.cluster = dirent.cluster
  empty : dirent.cluster = 0 → dirent.size = 0
  root : Chain info (disk s.d) info.rootCluster roots
  apart : roots.Disjoint cs

theorem Step.length_le {s t : Session σ} {c : Call} (step : Step ata info s c t) :
    s.content.length ≤ t.content.length := by
  cases step with
  | seek h => exact Nat.le_refl _
  | write h =>
      dsimp only
      rw [List.length_append, List.length_append, List.length_take, List.length_drop]
      omega

theorem run_length_le {s t : Session σ} {calls : List Call}
    (run : Run (Step ata info) s calls t) : s.content.length ≤ t.content.length := by
  induction run with
  | nil _ => exact Nat.le_refl _
  | cons first _ ih => exact le_trans first.length_le ih

namespace Session.Good

variable {path : List UInt8} {dirent : Dirent} {roots : List Nat} {s t : Session σ} {cs : List Nat}

theorem length (good : s.Good disk info path dirent roots cs) :
    s.content.length = s.file.dirent.size := by
  rw [good.content, fileBytes_length]

theorem write_length (good : s.Good disk info path dirent roots cs) {buffer : List UInt8}
    (step : Step ata info s (.write buffer) t) :
    t.content.length = max s.content.length (s.file.position + buffer.length) := by
  have hposition := good.position
  have hlength := good.length
  cases step with
  | write h =>
      dsimp only
      rw [List.length_append, List.length_append, List.length_take, List.length_drop]
      omega

/-- The clusters of other chains are none of those that a write adds. -/
theorem stored (volume : Volume info) (good : s.Good disk info path dirent roots cs)
    (hroots : info.rootCluster ∈ roots) {buffer : List UInt8} {file : File} {d : σ} {ns : List Nat}
    (hlt : s.file.position + buffer.length < 2 ^ 32)
    (stored : Stored info (disk s.d) (disk d) s.file file cs ns buffer) :
    Session.Good disk info path dirent roots
      { file := file
        content := s.content.take s.file.position ++ buffer
          ++ s.content.drop (s.file.position + buffer.length)
        d := d } (cs ++ ns) := by
  have same := stored.others info.rootCluster roots good.root good.apart
  have hsize := good.size_lt
  refine ⟨stored.handle, ?_, ?_, ?_, ?_, ?_, good.empty, ?_, ?_⟩
  · dsimp only
    rw [stored.bytes, good.content]
  · dsimp only
    rw [stored.position, stored.size]
    exact Nat.le_max_right _ _
  · dsimp only
    rw [stored.size]
    omega
  · rw [lookup_congr volume (same _ hroots)]
    exact good.entry
  · intro hcluster
    have hfile := good.cluster hcluster
    have hne : cs ≠ [] := by
      rintro rfl
      rcases good.handle.chain with ⟨hzero, -⟩ | ⟨hne, -⟩
      · exact hcluster (hfile ▸ hzero)
      · exact hne rfl
    rw [← hfile]
    exact stored.cluster hne
  · refine good.root.congr fun c hc => ?_
    refine (fat_congr fun a ha => ?_).symm
    exact (same c hc a (Or.inl ha)).symm
  · intro c hc hc'
    rcases List.mem_append.mp hc' with hold | hnew
    · exact good.apart hc hold
    · exact good.root.fat_ne_zero hc (mem_freeSet.mp (stored.fresh c hnew)).2

/-- A call that succeeds keeps the session good, unless the file has become too long for FAT32. -/
theorem step (reliable : Reliable ata disk) (volume : Volume info)
    (hdvd : info.bytesPerCluster ∣ 2 ^ 32) (hroots : info.rootCluster ∈ roots)
    (good : s.Good disk info path dirent roots cs) {c : Call} (step : Step ata info s c t) :
    (∃ cs', t.Good disk info path dirent roots cs') ∨ 2 ^ 32 ≤ t.content.length := by
  have hmounted := volume.not_unmounted
  cases step with
  | @seek position file h =>
      rw [fsSeek, if_neg hmounted] at h
      obtain ⟨-, rfl⟩ := Prod.mk.inj h
      refine Or.inl ⟨cs, ⟨?_, good.content, ?_, good.size_lt, good.entry, good.cluster,
        good.empty, good.root, good.apart⟩⟩
      · exact ⟨good.handle.regular, good.handle.chain, good.handle.size_le⟩
      · dsimp only
        split <;> omega
  | @write buffer fuel file d h =>
      by_cases hlt : s.file.position + buffer.length < 2 ^ 32
      · obtain ⟨hbuffer, hcluster⟩ := fsWrite_of_length volume hdvd h
        have hmore := fsWrite_mono h (Nat.le_max_left fuel (s.file.position + buffer.length + 1))
        rcases fsWrite_cases reliable volume good.handle good.position hbuffer hcluster hlt
            (Nat.le_max_right fuel (s.file.position + buffer.length + 1)) with
          ⟨-, file', d', ns, hrun, stored⟩ | ⟨-, r, file', d', hrun, hr⟩
        · rw [hmore] at hrun
          obtain ⟨-, hrest⟩ := Prod.mk.inj (Option.some.inj hrun)
          obtain ⟨rfl, rfl⟩ := Prod.mk.inj hrest
          exact Or.inl ⟨cs ++ ns, good.stored volume hroots hlt stored⟩
        · rw [hmore] at hrun
          exact absurd (congrArg Prod.fst (Option.some.inj hrun)).symm hr
      · refine Or.inr ?_
        rw [good.write_length (.write h)]
        omega

/-- Where the content is as long as the directory entry says, it is found again. -/
theorem reopens (reliable : Reliable ata disk) (volume : Volume info)
    (hsectors : info.sectorsPerCluster ∣ 128) (hroots : info.rootCluster ∈ roots)
    (hpath : path ≠ [0x2F]) (hregular : dirent.flags &&& FS_DIRECTORY = 0)
    (good : s.Good disk info path dirent roots cs) (hsize : s.content.length = dirent.size) :
    Reopens ata disk info path s := by
  refine ⟨rfl, fun blank => ?_⟩
  obtain ⟨d', hopen, hdisk'⟩ := fsOpen_eq reliable volume (good.root.valid _ hroots) hpath blank s.d
  rw [good.entry] at hopen
  have hreopened : ∃ cs', Handle info (disk s.d) (opened info dirent) cs' ∧
      fileBytes info (disk s.d) (opened info dirent) cs' = s.content := by
    by_cases hnone : dirent.cluster = 0
    · have hempty := good.empty hnone
      refine ⟨[], ⟨hregular, Or.inl ⟨hnone, rfl⟩, Nat.le_of_eq ?_⟩, ?_⟩
      · rw [List.length_nil, Nat.zero_mul]
        exact hempty
      · rw [hempty] at hsize
        rw [List.length_eq_zero_iff.mp hsize]
        apply List.length_eq_zero_iff.mp
        rw [fileBytes_length]
        exact hempty
    · have hfile := good.cluster hnone
      have hlength := good.length
      rw [hsize] at hlength
      refine ⟨cs, ⟨hregular, ?_, ?_⟩, ?_⟩
      · have hchain := good.handle.chain
        rwa [hfile] at hchain
      · have := good.handle.size_le
        rwa [← hlength] at this
      · rw [good.content, fileBytes, fileBytes, ← hlength]
        rfl
  obtain ⟨cs', handle, hbytes⟩ := hreopened
  rw [← hdisk'] at handle hbytes
  refine ⟨opened info dirent, d', cs', hopen, handle, hsize.symm, fun n fuel hn hfuel => ?_⟩
  have hdirent : dirent.size < 2 ^ 32 := lookup_size good.entry
  have hcluster : (0 / info.bytesPerCluster + 1) * info.bytesPerCluster < 2 ^ 32 := by
    have := Nat.le_of_dvd (by decide) hsectors
    rw [Nat.zero_div, Nat.zero_add, Nat.one_mul, volume.bytesPerCluster]
    omega
  obtain ⟨d'', hread, -⟩ := @fs_read_spec _ _ _ _ cs' reliable volume (opened info dirent) n d'
    handle hdirent (Nat.zero_le _) hcluster (by rw [opened, Nat.zero_add]; omega) fuel
    (by rw [hsize] at hfuel; exact hfuel)
  rw [hbytes] at hread
  have hdrop : s.content.drop (opened info dirent).position = s.content := List.drop_zero
  have hsub : (opened info dirent).dirent.size - (opened info dirent).position
      = s.content.length := by
    rw [hsize]
    exact Nat.sub_zero _
  rw [hdrop, hsub] at hread
  exact ⟨_, d'', hread⟩

theorem run (reliable : Reliable ata disk) (volume : Volume info)
    (hdvd : info.bytesPerCluster ∣ 2 ^ 32) (hroots : info.rootCluster ∈ roots)
    {calls : List Call} (run : Run (Step ata info) s calls t)
    (good : s.Good disk info path dirent roots cs) :
    (∃ cs', t.Good disk info path dirent roots cs') ∨ 2 ^ 32 ≤ t.content.length := by
  refine run.invariant (I := fun s => (∃ cs', s.Good disk info path dirent roots cs') ∨
    2 ^ 32 ≤ s.content.length) ?_ (Or.inl ⟨cs, good⟩)
  rintro s c t (⟨cs, good⟩ | hover) first
  · exact good.step reliable volume hdvd hroots first
  · exact Or.inr (le_trans hover first.length_le)

/-- Where the content is no longer at the end, every write ended within it. -/
theorem within_of_length (reliable : Reliable ata disk) (volume : Volume info)
    (hdvd : info.bytesPerCluster ∣ 2 ^ 32) (hroots : info.rootCluster ∈ roots)
    {calls : List Call} (run : Run (Step ata info) s calls t)
    (good : s.Good disk info path dirent roots cs) {size : Nat} (hsize : size < 2 ^ 32)
    (hstart : s.content.length = size) (hend : t.content.length ≤ size) :
    Run (fun s c t => Step ata info s c t ∧ Within size s c) s calls t := by
  induction run generalizing cs with
  | nil s => exact .nil s
  | @cons s u t c calls first rest ih =>
      have hlonger := run_length_le rest
      have hstep := first.length_le
      have hwithin : Within size s c := by
        cases c with
        | seek position => trivial
        | write buffer =>
            have hwrite := good.write_length first
            rw [Within]
            omega
      refine .cons ⟨first, hwithin⟩ ?_
      rcases good.step reliable volume hdvd hroots first with ⟨cs', good'⟩ | hover
      · exact ih good' (by omega) hend
      · omega

/-- Writes that end within the file as it was opened do not make it longer. -/
theorem run_within (reliable : Reliable ata disk) (volume : Volume info)
    (hdvd : info.bytesPerCluster ∣ 2 ^ 32) (hroots : info.rootCluster ∈ roots)
    {calls : List Call} {size : Nat} (hsize : size < 2 ^ 32)
    (run : Run (fun s c t => Step ata info s c t ∧ Within size s c) s calls t)
    (good : s.Good disk info path dirent roots cs) (hstart : s.content.length = size) :
    ∃ cs', t.Good disk info path dirent roots cs' ∧ t.content.length = size := by
  refine run.invariant (I := fun s => ∃ cs', s.Good disk info path dirent roots cs' ∧
    s.content.length = size) ?_ ⟨cs, good, hstart⟩
  rintro s c t ⟨cs, good, hlength⟩ ⟨first, hwithin⟩
  have hsame : t.content.length = size := by
    cases c with
    | seek position =>
        cases first
        exact hlength
    | write buffer =>
        rw [good.write_length first, hlength]
        exact Nat.max_eq_left hwithin
  rcases good.step reliable volume hdvd hroots first with ⟨cs', good'⟩ | hover
  · exact ⟨cs', good', hsame⟩
  · omega

/-- The session that `fs_open` begins. -/
theorem of_open (reliable : Reliable ata disk) (volume : Volume info) {blank file : File}
    {d₀ d : σ} (hopen : fsOpen ata info path blank d₀ = (FS_SUCCESS, file, d))
    (handle : Handle info (disk d) file cs) (root : Chain info (disk d) info.rootCluster roots)
    (hroots : info.rootCluster ∈ roots) (apart : roots.Disjoint cs) :
    path ≠ [0x2F] ∧ Session.Good disk info path file.dirent roots
      ⟨file, fileBytes info (disk d) file cs, d⟩ cs := by
  have hmounted := volume.not_unmounted
  have hpath : path ≠ [0x2F] := by
    rintro rfl
    rw [fsOpen, if_neg hmounted, if_pos rfl] at hopen
    obtain ⟨rfl, -⟩ := Prod.mk.inj (Prod.mk.inj hopen).2
    exact absurd handle.regular (by decide : ¬ FS_DIRECTORY &&& FS_DIRECTORY = 0)
  refine ⟨hpath, ?_⟩
  obtain ⟨d', heq, hdisk⟩ := fsOpen_eq reliable volume (root.valid _ hroots) hpath blank d₀
  rw [hopen] at heq
  cases hentry : lookup info (disk d₀) (path.dropWhile (· = 0x2F)) with
  | none =>
      rw [hentry] at heq
      exact absurd (Prod.mk.inj heq).1 (by decide)
  | some dirent =>
      rw [hentry] at heq
      obtain ⟨rfl, rfl⟩ := Prod.mk.inj (Prod.mk.inj heq).2
      refine ⟨handle, rfl, Nat.zero_le _, lookup_size hentry, ?_, fun _ => rfl, ?_, root, apart⟩
      · rw [hdisk]
        exact hentry
      · intro hnone
        rcases handle.chain with ⟨-, rfl⟩ | ⟨hne, chain⟩
        · have := handle.size_le
          rw [List.length_nil, Nat.zero_mul] at this
          exact Nat.le_zero.mp this
        · have hfirst := chain.linked.head_eq hne
          have := (chain.valid _ (List.head_mem hne)).1
          rw [hfirst] at this
          change 2 ≤ dirent.cluster at this
          change dirent.cluster = 0 at hnone
          omega

end Session.Good

/-- What is found when the file is opened again is the size that the directory entry has. -/
theorem Reopens.length (reliable : Reliable ata disk) (volume : Volume info)
    (root : Valid info info.rootCluster) {path : List UInt8} (hpath : path ≠ [0x2F])
    {s : Session σ} (h : Reopens ata disk info path s) :
    ∃ dirent, lookup info (disk s.d) (path.dropWhile (· = 0x2F)) = some dirent ∧
      s.content.length = dirent.size := by
  obtain ⟨file, d', cs, hopen, -, hsize, -⟩ := h.2 s.file
  obtain ⟨d'', heq, -⟩ := fsOpen_eq reliable volume root hpath s.file s.d
  rw [hopen] at heq
  cases hentry : lookup info (disk s.d) (path.dropWhile (· = 0x2F)) with
  | none =>
      rw [hentry] at heq
      exact absurd (Prod.mk.inj heq).1 (by decide)
  | some dirent =>
      rw [hentry] at heq
      obtain ⟨rfl, -⟩ := Prod.mk.inj (Prod.mk.inj heq).2
      exact ⟨dirent, rfl, hsize.symm⟩

/-- On a disk that works, with clusters of a size that FAT32 has, and a file whose chain and
the root directory's have no cluster in common: a session is found again if and only if every
write ended within the size that the file had when it was opened. -/
theorem reopens_iff (reliable : Reliable ata disk) (volume : Volume info)
    (hsectors : info.sectorsPerCluster ∣ 128) {path : List UInt8} {blank file : File} {d₀ d : σ}
    (hopen : fsOpen ata info path blank d₀ = (FS_SUCCESS, file, d)) {cs roots : List Nat}
    (handle : Handle info (disk d) file cs) (root : Chain info (disk d) info.rootCluster roots)
    (hroots : info.rootCluster ∈ roots) (apart : roots.Disjoint cs) {calls : List Call}
    {s : Session σ}
    (run : Run (Step ata info) ⟨file, fileBytes info (disk d) file cs, d⟩ calls s) :
    Reopens ata disk info path s ↔
      Run (fun s c t => Step ata info s c t ∧ Within file.dirent.size s c)
        ⟨file, fileBytes info (disk d) file cs, d⟩ calls s := by
  obtain ⟨hpath, good⟩ :=
    Session.Good.of_open reliable volume hopen handle root hroots apart
  have hdvd : info.bytesPerCluster ∣ 2 ^ 32 := by
    rw [volume.bytesPerCluster]
    exact Nat.dvd_trans (Nat.mul_dvd_mul_left 512 hsectors) (by decide)
  have hstart := good.length
  constructor
  · intro h
    obtain ⟨dirent, hentry, hlength⟩ := h.length reliable volume (root.valid _ hroots) hpath
    have hshort : s.content.length < 2 ^ 32 := by
      rw [hlength]
      exact lookup_size hentry
    rcases good.run reliable volume hdvd hroots run with ⟨cs', good'⟩ | hover
    · rw [good'.entry] at hentry
      rw [← Option.some.inj hentry] at hlength
      exact Session.Good.within_of_length reliable volume hdvd hroots run good good.size_lt hstart
        (Nat.le_of_eq hlength)
    · omega
  · intro hrun
    obtain ⟨cs', good', hsize⟩ :=
      Session.Good.run_within reliable volume hdvd hroots good.size_lt hrun good hstart
    exact good'.reopens reliable volume hsectors hroots hpath handle.regular hsize

/-! ### A small disk -/

/-- Clusters 2 and 3 are chains of their own. The root directory, in cluster 2, has one
file, A. -/
def oneFile (size cluster : UInt8) : Store := fun a =>
  if 520 ≤ a ∧ a < 528 then if a % 4 = 3 then 0x0F else 0xFF
  else if a = 1024 then 0x41
  else if 1025 ≤ a ∧ a < 1035 then 0x20
  else if a = 1050 then cluster
  else if a = 1052 then size
  else 0

/-- The handle of A. -/
def handleA (size cluster : Nat) : File := opened smallVolume ⟨[0x41], size, FS_FILE, cluster⟩

/-- A cluster that is marked as the end of its chain is a chain. -/
theorem smallVolume_chain {m : Store} {c : Nat} (hvalid : Valid smallVolume c)
    (hend : fat smallVolume m c = 0x0FFFFFFF) : Chain smallVolume m c [c] := by
  refine ⟨⟨rfl, smallVolume_volume.not_eoc hvalid.2, ?_⟩, List.nodup_singleton c, ?_⟩
  · change FAT32_EOC ≤ fat smallVolume m c
    rw [hend]
    decide
  · intro x hx
    rwa [List.mem_singleton.mp hx]

/-- A file of three bytes, in cluster 3, two of which are overwritten. -/
theorem reopens_iff_overwrite :
    ∃ s : Session Store, Run (Step memoryDisk smallVolume)
        ⟨handleA 3 3, [0, 0, 0], oneFile 3 3⟩ [.write [1, 2]] s ∧
      s.content = [1, 2, 0] ∧ Reopens memoryDisk id smallVolume [0x2F, 0x41] s := by
  have hopen : fsOpen memoryDisk smallVolume [0x2F, 0x41] emptyFile (oneFile 3 3)
      = (FS_SUCCESS, handleA 3 3, oneFile 3 3) := rfl
  have root : Chain smallVolume (oneFile 3 3) smallVolume.rootCluster [2] :=
    smallVolume_chain ⟨by decide, by decide⟩ rfl
  have chain : Chain smallVolume (oneFile 3 3) 3 [3] :=
    smallVolume_chain ⟨by decide, by decide⟩ rfl
  have handle : Handle smallVolume (oneFile 3 3) (handleA 3 3) [3] :=
    ⟨rfl, Or.inr ⟨List.cons_ne_nil _ _, chain⟩, by decide⟩
  have hbytes : fileBytes smallVolume (oneFile 3 3) (handleA 3 3) [3] = [0, 0, 0] := rfl
  have hwrite := @fsWrite_cases _ _ _ _ memoryDisk_reliable smallVolume_volume (handleA 3 3) [3]
    [1, 2] (oneFile 3 3) handle (by decide) (by decide) (by decide) (by decide) 3 (by decide)
  have hneed : clustersNeeded smallVolume (handleA 3 3).position ([1, 2] : List UInt8).length = 1 :=
    rfl
  rw [hneed, List.length_singleton] at hwrite
  rcases hwrite with ⟨-, file, d, ns, hrun, -⟩ | ⟨hfull, -⟩
  · have first : Step memoryDisk smallVolume
        ⟨handleA 3 3, fileBytes smallVolume (oneFile 3 3) (handleA 3 3) [3], oneFile 3 3⟩
        (.write [1, 2]) ⟨file, [1, 2, 0], d⟩ := .write hrun
    refine ⟨⟨file, [1, 2, 0], d⟩, ?_, rfl, ?_⟩
    · rw [← hbytes]
      exact .single first
    refine (reopens_iff memoryDisk_reliable smallVolume_volume (by decide) hopen handle
      root (List.mem_singleton.mpr rfl) (by simp) (.single first)).mpr ?_
    exact .single ⟨first, (by decide : 0 + 2 ≤ 3)⟩
  · omega

/-- An empty file, one byte of which is written: it is empty when it is opened again. -/
theorem empty_when_reopened :
    fsOpen memoryDisk smallVolume [0x2F, 0x41] emptyFile (oneFile 0 0)
        = (FS_SUCCESS, handleA 0 0, oneFile 0 0) ∧
      Handle smallVolume (oneFile 0 0) (handleA 0 0) [] ∧
      ∃ s : Session Store, Run (Step memoryDisk smallVolume)
          ⟨handleA 0 0, [], oneFile 0 0⟩ [.write [1]] s ∧
        s.content = [1] ∧ ¬ Reopens memoryDisk id smallVolume [0x2F, 0x41] s := by
  have hopen : fsOpen memoryDisk smallVolume [0x2F, 0x41] emptyFile (oneFile 0 0)
      = (FS_SUCCESS, handleA 0 0, oneFile 0 0) := rfl
  have handle : Handle smallVolume (oneFile 0 0) (handleA 0 0) [] :=
    ⟨rfl, Or.inl ⟨rfl, rfl⟩, Nat.le_refl 0⟩
  refine ⟨hopen, handle, ?_⟩
  have root : Chain smallVolume (oneFile 0 0) smallVolume.rootCluster [2] :=
    smallVolume_chain ⟨by decide, by decide⟩ rfl
  have hroots : smallVolume.rootCluster ∈ [2] := List.mem_singleton.mpr rfl
  obtain ⟨hpath, good⟩ := Session.Good.of_open memoryDisk_reliable smallVolume_volume hopen handle
    root hroots (List.disjoint_nil_right _)
  have hfree : 4 ∈ freeSet smallVolume (id (oneFile 0 0)) :=
    mem_freeSet.mpr ⟨⟨by decide, by decide⟩, rfl⟩
  have hsome := Finset.card_pos.mpr ⟨4, hfree⟩
  have hwrite := @fsWrite_cases _ _ _ _ memoryDisk_reliable smallVolume_volume (handleA 0 0) []
    [1] (oneFile 0 0) handle (by decide) (by decide) (by decide) (by decide) 2 (by decide)
  have hneed : clustersNeeded smallVolume (handleA 0 0).position ([1] : List UInt8).length = 1 := rfl
  rw [hneed, List.length_nil, Nat.zero_add] at hwrite
  rcases hwrite with ⟨-, file, d, ns, hrun, -⟩ | ⟨hfull, -⟩
  · have first : Step memoryDisk smallVolume ⟨handleA 0 0, [], oneFile 0 0⟩ (.write [1])
        ⟨file, [1], d⟩ := .write hrun
    refine ⟨_, .single first, rfl, fun h => ?_⟩
    obtain ⟨dirent, hentry, hlength⟩ := h.length memoryDisk_reliable smallVolume_volume
      (root.valid _ hroots) hpath
    rcases good.step memoryDisk_reliable smallVolume_volume (by decide) hroots first with
      ⟨cs', good'⟩ | hover
    · rw [good'.entry] at hentry
      rw [← Option.some.inj hentry] at hlength
      exact absurd hlength (by decide : ¬ 1 = 0)
    · exact absurd hover (by decide : ¬ 2 ^ 32 ≤ 1)
  · omega

end Curnel.Filesystem
