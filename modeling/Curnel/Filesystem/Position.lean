/-
The position and the size of an open file, over sequences of calls in which sectors fail.

fs_read and fs_write move the position one sector at a time and return FS_ERROR where a
sector fails, without taking the position back; fs_write makes the file larger only at its
end. `Moves` says what a transfer does to the position, by the answers of the disk to its
sectors. So a call is sound unless a sector fails after one that did not (`FileCall.Late`).
-/

import Curnel.Filesystem.Directory
import Curnel.Lib.Run

namespace Curnel.Filesystem

open Lib Bytes Word

variable {σ : Type}

/-! ### The answers of the disk -/

/-- `readLoop`: whether each sector of the data that it asks for can be read. -/
def readLoopAnswers (ata : Ata σ) (info : FsInfo) : Nat → Nat → Nat → Nat → σ → List Bool
  | 0, _, _, _, _ => []
  | fuel + 1, cluster, clusterPos, bytesLeft, d =>
      if bytesLeft > 0 then
        let sectorLba := wadd 32 (fat32ClusterToLba info cluster) (clusterPos / info.bytesPerSector)
        let offset := clusterPos % info.bytesPerSector
        match ata.readSector sectorLba d with
        | (none, _) => [false]
        | (some _, d) =>
            let room := wsub 32 info.bytesPerSector offset
            let sectorBytes := if room > bytesLeft then bytesLeft else room
            let bytesLeft := bytesLeft - sectorBytes
            let clusterPos := wadd 32 clusterPos sectorBytes
            true ::
              if clusterPos ≥ info.bytesPerCluster then
                let (next, d) := fat32ReadFatEntry ata info cluster d
                if next ≥ FAT32_EOC ∧ bytesLeft > 0 then []
                else readLoopAnswers ata info fuel next 0 bytesLeft d
              else readLoopAnswers ata info fuel cluster clusterPos bytesLeft d
      else []

/-- `fsRead`. -/
def fsReadAnswers (ata : Ata σ) (info : FsInfo) (fuel : Nat) (file : File) (size : Nat) (d : σ) :
    List Bool :=
  if info.mounted = false then []
  else if file.dirent.flags &&& FS_DIRECTORY ≠ 0 then []
  else if file.position ≥ file.dirent.size then []
  else
    let size :=
      if wadd 64 file.position size > file.dirent.size then file.dirent.size - file.position
      else size
    match seekToRead ata info file.position fuel 0 file.dirent.cluster d with
    | some (some cluster, d) =>
        readLoopAnswers ata info fuel cluster (file.position % info.bytesPerCluster) size d
    | _ => []

/-- `writeLoop`: whether each sector of the data can be read and written back. -/
def writeLoopAnswers (ata : Ata σ) (info : FsInfo) :
    Nat → Nat → Nat → List UInt8 → σ → List Bool
  | 0, _, _, _, _ => []
  | fuel + 1, cluster, clusterPos, src, d =>
      if src.length > 0 then
        let sectorLba := wadd 32 (fat32ClusterToLba info cluster) (clusterPos / info.bytesPerSector)
        let offset := clusterPos % info.bytesPerSector
        match ata.readSector sectorLba d with
        | (none, _) => [false]
        | (some sector, d) =>
            let room := wsub 32 info.bytesPerSector offset
            let sectorBytes := if room > src.length then src.length else room
            let sector := writeBytes sector offset (src.take sectorBytes)
            match ata.writeSector sectorLba sector d with
            | (false, _) => [false]
            | (true, d) =>
                let src := src.drop sectorBytes
                let clusterPos := wadd 32 clusterPos sectorBytes
                true ::
                  if clusterPos ≥ info.bytesPerCluster then
                    let (next, d) := fat32ReadFatEntry ata info cluster d
                    if next ≥ FAT32_EOC ∧ src.length > 0 then
                      let (new, d) := fat32AllocateCluster ata info d
                      if new = 0 then []
                      else
                        let d := (fat32WriteFatEntry ata info cluster new d).2
                        writeLoopAnswers ata info fuel new 0 src d
                    else writeLoopAnswers ata info fuel next 0 src d
                  else writeLoopAnswers ata info fuel cluster clusterPos src d
      else []

/-- `writeFrom`. -/
def writeFromAnswers (ata : Ata σ) (info : FsInfo) (fuel : Nat) (file : File)
    (buffer : List UInt8) (d : σ) : List Bool :=
  match seekToWrite ata info file.position fuel 0 file.dirent.cluster d with
  | some (some cluster, d) =>
      writeLoopAnswers ata info fuel cluster (file.position % info.bytesPerCluster) buffer d
  | _ => []

/-- `fsWrite`. -/
def fsWriteAnswers (ata : Ata σ) (info : FsInfo) (fuel : Nat) (file : File) (buffer : List UInt8)
    (d : σ) : List Bool :=
  if info.mounted = false then []
  else if file.dirent.flags &&& FS_DIRECTORY ≠ 0 then []
  else if file.dirent.cluster = 0 then
    let (cluster, d) := fat32AllocateCluster ata info d
    if cluster = 0 then []
    else
      writeFromAnswers ata info fuel
        { file with dirent := { file.dirent with cluster := cluster }, currentCluster := cluster }
        buffer d
  else writeFromAnswers ata info fuel file buffer d

/-! ### The calls -/

/-- A call on an open file. `fs_open` fills the same handle again. -/
inductive FileCall where
  | reopen (path : List UInt8)
  | seek (position : Nat)
  | read (size : Nat)
  | write (buffer : List UInt8)

/-- What a call returns, and the handle and the disk after it. Loops of it take no more than
`fuel` rounds. -/
def FileCall.run (ata : Ata σ) (info : FsInfo) (fuel : Nat) : FileCall → File × σ → Option (Int × File × σ)
  | .reopen path, (file, d) => some (fsOpen ata info path file d)
  | .seek position, (file, d) => some ((fsSeek info file position).1, (fsSeek info file position).2, d)
  | .read size, (file, d) => (fsRead ata info fuel file size d).map fun out => (out.1, out.2.2)
  | .write buffer, (file, d) => fsWrite ata info fuel file buffer d

/-- The answers of the disk to the sectors of the data that a call transfers. -/
def FileCall.answers (ata : Ata σ) (info : FsInfo) (fuel : Nat) : FileCall → File × σ → List Bool
  | .read size, (file, d) => fsReadAnswers ata info fuel file size d
  | .write buffer, (file, d) => fsWriteAnswers ata info fuel file buffer d
  | _, _ => []

/-- A sector of the data fails after another one has been transferred. -/
def FileCall.Late (ata : Ata σ) (info : FsInfo) (fuel : Nat) (call : FileCall) (s : File × σ) : Prop :=
  true ∈ call.answers ata info fuel s ∧ false ∈ call.answers ata info fuel s

/-- The bytes asked for end below 2⁶⁴, and their number as an `int` is not FS_ERROR. -/
def FileCall.InRange : FileCall → File × σ → Prop
  | .read size, (file, _) =>
      file.position + size < 2 ^ 64 ∧ min size (file.dirent.size - file.position) < 2 ^ 32 - 1
  | .write buffer, _ => buffer.length < 2 ^ 32 - 1
  | _, _ => True

/-- A call leads from one handle and disk to the next. -/
def FileCall.Step (ata : Ata σ) (info : FsInfo) (fuel : Nat) (s : File × σ) (call : FileCall)
    (t : File × σ) : Prop :=
  ∃ result, call.run ata info fuel s = some (result, t)

/-- The position is within the file, whose size is a 32-bit number. -/
structure Bounded (file : File) : Prop where
  position_le : file.position ≤ file.dirent.size
  size_lt : file.dirent.size < 2 ^ 32

/-- The position is within the file after the call, and the call has left the position and
the size as they were if it returns FS_ERROR. -/
structure FileCall.Sound (ata : Ata σ) (info : FsInfo) (fuel : Nat) (s : File × σ) (call : FileCall)
    (t : File × σ) : Prop where
  position_le : t.1.position ≤ t.1.dirent.size
  error_keeps : call.run ata info fuel s = some (FS_ERROR, t) →
    t.1.position = s.1.position ∧ t.1.dirent.size = s.1.dirent.size

variable {ata : Ata σ} {info : FsInfo}

/-! ### What a transfer does to the position -/

/-- With these answers a loop goes from a position, with so many bytes left, to another. -/
structure Moves (answers : List Bool) (position left : Nat) (failed : Bool)
    (position' left' : Nat) : Prop where
  left_le : left' ≤ left
  position_eq : position' = (position + (left - left')) % 2 ^ 32
  failed_iff : failed = true ↔ false ∈ answers
  moved_iff : left' < left ↔ true ∈ answers

namespace Moves

variable {answers : List Bool} {position left position' left' : Nat} {failed : Bool}

theorem stay (hposition : position < 2 ^ 32) : Moves [] position left false position left where
  left_le := le_refl left
  position_eq := by rw [Nat.sub_self, Nat.add_zero, Nat.mod_eq_of_lt hposition]
  failed_iff := iff_of_false Bool.false_ne_true List.not_mem_nil
  moved_iff := iff_of_false (lt_irrefl left) List.not_mem_nil

theorem fail (hposition : position < 2 ^ 32) : Moves [false] position left true position left where
  left_le := le_refl left
  position_eq := by rw [Nat.sub_self, Nat.add_zero, Nat.mod_eq_of_lt hposition]
  failed_iff := iff_of_true rfl (List.mem_singleton_self false)
  moved_iff := iff_of_false (lt_irrefl left) (by decide)

/-- A sector of which `n` bytes are transferred, and the sectors after it. -/
theorem sector {n : Nat} (hpos : 0 < n) (hle : n ≤ left)
    (rest : Moves answers (wadd 32 position n) (left - n) failed position' left') :
    Moves (true :: answers) position left failed position' left' where
  left_le := rest.left_le.trans (Nat.sub_le left n)
  position_eq := by
    have hrest := rest.left_le
    have hsum : n + position + (left - n - left') = position + (left - left') := by omega
    rw [rest.position_eq, wadd, Nat.mod_add_mod, hsum]
  failed_iff := by
    rw [rest.failed_iff, List.mem_cons]
    exact (or_iff_right Bool.false_ne_true).symm
  moved_iff := by
    have hrest := rest.left_le
    refine iff_of_true ?_ List.mem_cons_self
    omega

end Moves

/-- A sector that can be divided into bytes leaves room behind every offset. -/
theorem room_pos {bytesPerSector : Nat} (hbytes : 0 < bytesPerSector)
    (hword : bytesPerSector < 2 ^ 32) (clusterPos : Nat) :
    0 < wsub 32 bytesPerSector (clusterPos % bytesPerSector) := by
  have hoffset := Nat.mod_lt clusterPos hbytes
  rw [wsub_of_le hword hoffset.le]
  exact Nat.sub_pos_of_lt hoffset

theorem readLoop_moves (hbytes : 0 < info.bytesPerSector) (hword : info.bytesPerSector < 2 ^ 32)
    {fuel cluster clusterPos position left : Nat} {dst : List UInt8} {d d' : σ} {c : Copied}
    (hposition : position < 2 ^ 32)
    (h : readLoop ata info fuel cluster clusterPos position left dst d = some (c, d')) :
    Moves (readLoopAnswers ata info fuel cluster clusterPos left d) position left c.failed
      c.position c.bytesLeft := by
  induction fuel generalizing cluster clusterPos position left dst d with
  | zero => cases h
  | succ fuel ih =>
      rw [readLoop] at h
      rw [readLoopAnswers]
      by_cases hleft : left > 0
      · have hroom := room_pos hbytes hword clusterPos
        rw [if_pos hleft] at h ⊢
        dsimp only at h ⊢
        generalize wsub 32 info.bytesPerSector (clusterPos % info.bytesPerSector) = room at h hroom ⊢
        have hn : 0 < (if room > left then left else room) ∧
            (if room > left then left else room) ≤ left := by
          split <;> omega
        generalize (if room > left then left else room) = n at h hn ⊢
        have hnext := wadd_lt 32 position n
        generalize ata.readSector _ d = answer at h ⊢
        obtain ⟨_ | sector, d⟩ := answer
        · cases h
          exact Moves.fail hposition
        · refine Moves.sector hn.1 hn.2 ?_
          dsimp only at h
          split at h
          next hend =>
            rw [if_pos hend]
            split at h
            next hlast =>
              cases h
              rw [if_pos hlast]
              exact Moves.stay hnext
            next hmore =>
              rw [if_neg hmore]
              exact ih hnext h
          next hinside =>
            rw [if_neg hinside]
            exact ih hnext h
      · cases Nat.eq_zero_of_not_pos hleft
        rw [if_neg hleft] at h ⊢
        cases h
        exact Moves.stay hposition

theorem writeLoop_moves (hbytes : 0 < info.bytesPerSector) (hword : info.bytesPerSector < 2 ^ 32)
    {fuel cluster clusterPos position : Nat} {src : List UInt8} {d d' : σ} {w : Written}
    (hposition : position < 2 ^ 32)
    (h : writeLoop ata info fuel cluster clusterPos position src d = some (w, d')) :
    Moves (writeLoopAnswers ata info fuel cluster clusterPos src d) position src.length w.failed
      w.position w.bytesLeft := by
  induction fuel generalizing cluster clusterPos position src d with
  | zero => cases h
  | succ fuel ih =>
      rw [writeLoop] at h
      rw [writeLoopAnswers]
      by_cases hsrc : src.length > 0
      · have hroom := room_pos hbytes hword clusterPos
        rw [if_pos hsrc] at h ⊢
        dsimp only at h ⊢
        generalize wsub 32 info.bytesPerSector (clusterPos % info.bytesPerSector) = room at h hroom ⊢
        have hn : 0 < (if room > src.length then src.length else room) ∧
            (if room > src.length then src.length else room) ≤ src.length := by
          split <;> omega
        generalize (if room > src.length then src.length else room) = n at h hn ⊢
        have hnext := wadd_lt 32 position n
        generalize ata.readSector _ d = answer at h ⊢
        obtain ⟨_ | sector, d⟩ := answer
        · cases h
          exact Moves.fail hposition
        · dsimp only at h ⊢
          generalize ata.writeSector _ _ d = answer at h ⊢
          obtain ⟨_ | _, d⟩ := answer
          · cases h
            exact Moves.fail hposition
          · refine Moves.sector hn.1 hn.2 ?_
            dsimp only at h
            rw [← List.length_drop]
            split at h
            next hend =>
              rw [if_pos hend]
              split at h
              next hlast =>
                rw [if_pos hlast]
                split at h
                next hfull =>
                  cases h
                  rw [if_pos hfull]
                  exact Moves.stay hnext
                next hfree =>
                  rw [if_neg hfree]
                  exact ih hnext h
              next hmore =>
                rw [if_neg hmore]
                exact ih hnext h
            next hinside =>
              rw [if_neg hinside]
              exact ih hnext h
      · have hnil := Nat.eq_zero_of_not_pos hsrc
        rw [if_neg hsrc] at h ⊢
        cases h
        rw [hnil]
        exact Moves.stay hposition

/-! ### What a call does to the handle -/

/-- How a call leaves the position and the size, for the answers of the disk to it and the
number of bytes it goes for. -/
inductive Transfers (answers : List Bool) (limit : Nat) (file file' : File) : Int → Prop where
  | nothing (result : Int) : answers = [] → file'.position = file.position →
      file'.dirent.size = file.dirent.size → Transfers answers limit file file' result
  | failed {left : Nat} :
      Moves answers file.position limit true file'.position left →
      file'.dirent.size = file.dirent.size → Transfers answers limit file file' FS_ERROR
  | ended {left : Nat} :
      Moves answers file.position limit false file'.position left →
      file'.position ≤ file'.dirent.size → file'.dirent.size < 2 ^ 32 →
      Transfers answers limit file file' (toInt32 (limit - left))

theorem Moves.position_eq_iff {answers : List Bool} {position limit position' left : Nat}
    {failed : Bool} (moves : Moves answers position limit failed position' left)
    (hlimit : limit < 2 ^ 32) (hposition : position < 2 ^ 32) :
    position' = position ↔ true ∉ answers := by
  have hle := moves.left_le
  rw [← moves.moved_iff, moves.position_eq]
  omega

/-- A transfer is sound exactly if no sector fails after another one. -/
theorem Transfers.sound_iff {answers : List Bool} {limit : Nat} {file file' : File} {result : Int}
    (transfers : Transfers answers limit file file' result) (bounded : Bounded file)
    (hlimit : limit < 2 ^ 32 - 1) :
    (file'.position ≤ file'.dirent.size ∧
        (result = FS_ERROR → file'.position = file.position ∧
          file'.dirent.size = file.dirent.size)) ↔
      ¬ (true ∈ answers ∧ false ∈ answers) := by
  have hle := bounded.position_le
  have hlt := bounded.size_lt
  cases transfers with
  | nothing result hnone hposition hsize =>
      refine iff_of_true ⟨?_, fun _ => ⟨hposition, hsize⟩⟩ ?_
      · rwa [hposition, hsize]
      · rw [hnone]
        exact fun late => absurd late.1 List.not_mem_nil
  | @failed left moves hsize =>
      have hsame := moves.position_eq_iff (by omega) (by omega)
      constructor
      · rintro ⟨-, hkeeps⟩ ⟨hsome, -⟩
        exact hsame.mp (hkeeps rfl).1 hsome
      · intro hnotLate
        have hposition := hsame.mpr fun hsome => hnotLate ⟨hsome, moves.failed_iff.mp rfl⟩
        refine ⟨?_, fun _ => ⟨hposition, hsize⟩⟩
        rwa [hposition, hsize]
  | @ended left moves hwithin hsize =>
      constructor
      · rintro - ⟨-, hbad⟩
        cases moves.failed_iff.mpr hbad
      · intro hnotLate
        refine ⟨hwithin, fun herror => ?_⟩
        have hcount := toInt32_eq_neg_one_iff.mp herror
        omega

theorem Transfers.size_lt {answers : List Bool} {limit : Nat} {file file' : File} {result : Int}
    (transfers : Transfers answers limit file file' result) (bounded : Bounded file) :
    file'.dirent.size < 2 ^ 32 := by
  cases transfers with
  | nothing result hnone hposition hsize => exact hsize ▸ bounded.size_lt
  | failed moves hsize => exact hsize ▸ bounded.size_lt
  | ended moves hwithin hsize => exact hsize

/-- Within the 64 bits of its sum, `fs_read` goes for what is left of the file at most. -/
theorem limit_eq {position size count : Nat} (hle : position ≤ size)
    (hrange : position + count < 2 ^ 64) :
    (if wadd 64 position count > size then size - position else count)
      = min count (size - position) := by
  rw [wadd_of_lt hrange]
  split <;> omega

theorem fsRead_transfers (hbytes : 0 < info.bytesPerSector) (hword : info.bytesPerSector < 2 ^ 32)
    {fuel size : Nat} {file file' : File} {d d' : σ} {result : Int} {bytes : List UInt8}
    (bounded : Bounded file) (hrange : file.position + size < 2 ^ 64)
    (h : fsRead ata info fuel file size d = some (result, bytes, file', d')) :
    Transfers (fsReadAnswers ata info fuel file size d) (min size (file.dirent.size - file.position))
      file file' result := by
  have hle := bounded.position_le
  have hlt := bounded.size_lt
  have hposition : file.position < 2 ^ 32 := by omega
  unfold fsRead at h
  unfold fsReadAnswers
  by_cases hmounted : info.mounted = false
  · rw [if_pos hmounted] at h ⊢
    cases h
    exact .nothing _ rfl rfl rfl
  by_cases hdirectory : file.dirent.flags &&& FS_DIRECTORY ≠ 0
  · rw [if_neg hmounted, if_pos hdirectory] at h ⊢
    cases h
    exact .nothing _ rfl rfl rfl
  by_cases hend : file.position ≥ file.dirent.size
  · rw [if_neg hmounted, if_neg hdirectory, if_pos hend] at h ⊢
    cases h
    exact .nothing _ rfl rfl rfl
  rw [if_neg hmounted, if_neg hdirectory, if_neg hend, limit_eq hle hrange] at h ⊢
  generalize hlimit : min size (file.dirent.size - file.position) = limit at h ⊢
  cases hseek : seekToRead ata info file.position fuel 0 file.dirent.cluster d with
  | none =>
      rw [hseek] at h
      cases h
  | some reached =>
      obtain ⟨place, d₁⟩ := reached
      rw [hseek] at h
      cases place with
      | none =>
          cases h
          exact .nothing _ rfl rfl rfl
      | some cluster =>
          dsimp only at h ⊢
          cases hloop : readLoop ata info fuel cluster (file.position % info.bytesPerCluster)
              file.position limit [] d₁ with
          | none =>
              rw [hloop] at h
              cases h
          | some copied =>
              obtain ⟨⟨failed, position, left, dst⟩, d₂⟩ := copied
              have moves := readLoop_moves hbytes hword hposition hloop
              dsimp only at moves
              have hless := moves.left_le
              have hmoved := moves.position_eq
              rw [hloop] at h
              cases failed with
              | true =>
                  cases h
                  exact .failed moves rfl
              | false =>
                  cases h
                  refine .ended moves ?_ hlt
                  dsimp only
                  omega

theorem writeFrom_transfers (hbytes : 0 < info.bytesPerSector)
    (hword : info.bytesPerSector < 2 ^ 32) {fuel : Nat} {buffer : List UInt8} {file file' : File}
    {d d' : σ} {result : Int} (bounded : Bounded file)
    (h : writeFrom ata info fuel file buffer d = some (result, file', d')) :
    Transfers (writeFromAnswers ata info fuel file buffer d) buffer.length file file' result := by
  have hlt := bounded.size_lt
  have hposition : file.position < 2 ^ 32 := lt_of_le_of_lt bounded.position_le hlt
  unfold writeFrom at h
  unfold writeFromAnswers
  cases hseek : seekToWrite ata info file.position fuel 0 file.dirent.cluster d with
  | none =>
      rw [hseek] at h
      cases h
  | some reached =>
      obtain ⟨place, d₁⟩ := reached
      rw [hseek] at h
      cases place with
      | none =>
          cases h
          exact .nothing _ rfl rfl rfl
      | some cluster =>
          dsimp only at h ⊢
          cases hloop : writeLoop ata info fuel cluster (file.position % info.bytesPerCluster)
              file.position buffer d₁ with
          | none =>
              rw [hloop] at h
              cases h
          | some written =>
              obtain ⟨⟨failed, position, left⟩, d₂⟩ := written
              have moves := writeLoop_moves hbytes hword hposition hloop
              dsimp only at moves
              have hnext : position < 2 ^ 32 := by
                rw [moves.position_eq]
                exact Nat.mod_lt _ (Nat.two_pow_pos 32)
              rw [hloop] at h
              cases failed with
              | true =>
                  cases h
                  exact .failed moves rfl
              | false =>
                  dsimp only at h
                  split at h
                  next hlonger =>
                    cases h
                    exact .ended moves (le_refl position) hnext
                  next hshorter =>
                    cases h
                    exact .ended moves (Nat.le_of_not_lt hshorter) hlt

theorem fsWrite_transfers (hbytes : 0 < info.bytesPerSector) (hword : info.bytesPerSector < 2 ^ 32)
    {fuel : Nat} {buffer : List UInt8} {file file' : File} {d d' : σ} {result : Int}
    (bounded : Bounded file)
    (h : fsWrite ata info fuel file buffer d = some (result, file', d')) :
    Transfers (fsWriteAnswers ata info fuel file buffer d) buffer.length file file' result := by
  unfold fsWrite at h
  unfold fsWriteAnswers
  by_cases hmounted : info.mounted = false
  · rw [if_pos hmounted] at h ⊢
    cases h
    exact .nothing _ rfl rfl rfl
  by_cases hdirectory : file.dirent.flags &&& FS_DIRECTORY ≠ 0
  · rw [if_neg hmounted, if_pos hdirectory] at h ⊢
    cases h
    exact .nothing _ rfl rfl rfl
  rw [if_neg hmounted, if_neg hdirectory] at h ⊢
  by_cases hcluster : file.dirent.cluster = 0
  · rw [if_pos hcluster] at h ⊢
    dsimp only at h ⊢
    split at h
    next hfull =>
      cases h
      rw [if_pos hfull]
      exact .nothing _ rfl rfl rfl
    next hfree =>
      rw [if_neg hfree]
      -- the handle has its first cluster now, and the same position and size
      have bounded' : Bounded { file with
          dirent := { file.dirent with cluster := (fat32AllocateCluster ata info d).1 }
          currentCluster := (fat32AllocateCluster ata info d).1 } :=
        ⟨bounded.position_le, bounded.size_lt⟩
      cases writeFrom_transfers hbytes hword bounded' h with
      | nothing result hnone hposition hsize => exact .nothing _ hnone hposition hsize
      | failed moves hsize => exact .failed moves hsize
      | ended moves hwithin hsize => exact .ended moves hwithin hsize
  · rw [if_neg hcluster] at h ⊢
    exact writeFrom_transfers hbytes hword bounded h

theorem scanRoot_size {filename : List UInt8} {n i : Nat} {d d' : σ} {dirent : Dirent}
    (h : scanRoot ata info filename n i d = (.ok dirent, d')) : dirent.size < 2 ^ 32 := by
  induction n generalizing i d with
  | zero => cases h
  | succ n ih =>
      rw [scanRoot] at h
      split at h
      next => cases h
      next sector d hsector =>
        split at h
        next found hfound =>
          cases h
          exact findInSector_size hfound
        next => exact ih h

theorem scanRoot_error {filename : List UInt8} {n i : Nat} {d d' : σ} {e : Int}
    (h : scanRoot ata info filename n i d = (.error e, d')) : e ≠ FS_SUCCESS := by
  induction n generalizing i d with
  | zero =>
      cases h
      decide
  | succ n ih =>
      rw [scanRoot] at h
      split at h
      next =>
        cases h
        decide
      next sector d hsector =>
        split at h
        next => cases h
        next => exact ih h

/-- `fs_open` leaves the handle as it is, or fills it at position 0. -/
theorem fsOpen_handle (path : List UInt8) (file : File) (d : σ) :
    ((fsOpen ata info path file d).1 ≠ FS_SUCCESS ∧ (fsOpen ata info path file d).2.1 = file) ∨
      ((fsOpen ata info path file d).1 = FS_SUCCESS ∧
        Bounded (fsOpen ata info path file d).2.1) := by
  unfold fsOpen
  split
  next => exact .inl ⟨show FS_NOT_MOUNTED ≠ FS_SUCCESS by decide, rfl⟩
  split
  next => exact .inr ⟨rfl, Nat.zero_le 0, Nat.two_pow_pos 32⟩
  split
  next e d' hscan => exact .inl ⟨scanRoot_error hscan, rfl⟩
  next dirent d' hscan => exact .inr ⟨rfl, Nat.zero_le _, scanRoot_size hscan⟩

/-! ### Runs of calls -/

/-- One call: it is sound exactly if no sector fails late, and then the next one begins with
a position within the file again. -/
theorem FileCall.Step.sound_iff (hbytes : 0 < info.bytesPerSector)
    (hword : info.bytesPerSector < 2 ^ 32) {fuel : Nat} {s t : File × σ} {call : FileCall}
    (bounded : Bounded s.1) (step : FileCall.Step ata info fuel s call t) (hrange : call.InRange s) :
    (FileCall.Sound ata info fuel s call t ↔ ¬ call.Late ata info fuel s) ∧
      t.1.dirent.size < 2 ^ 32 := by
  obtain ⟨result, hrun⟩ := step
  obtain ⟨file, d⟩ := s
  obtain ⟨file', d'⟩ := t
  -- what is asked of the result that the call returns
  have hsound : FileCall.Sound ata info fuel (file, d) call (file', d') ↔
      file'.position ≤ file'.dirent.size ∧ (result = FS_ERROR → file'.position = file.position ∧
        file'.dirent.size = file.dirent.size) := by
    constructor
    · intro sound
      refine ⟨sound.position_le, fun herror => sound.error_keeps ?_⟩
      rw [hrun, herror]
    · rintro ⟨hwithin, hkeeps⟩
      refine ⟨hwithin, fun herror => hkeeps ?_⟩
      rw [hrun] at herror
      cases herror
      rfl
  rw [hsound]
  cases call with
  | reopen path =>
      have hout : fsOpen ata info path file d = (result, file', d') := Option.some.inj hrun
      rcases @fsOpen_handle _ ata info path file d with ⟨-, hsame⟩ | ⟨hopened, bounded'⟩
      · rw [hout] at hsame
        cases hsame
        exact ⟨iff_of_true ⟨bounded.position_le, fun _ => ⟨rfl, rfl⟩⟩
          fun late => absurd late.1 List.not_mem_nil, bounded.size_lt⟩
      · rw [hout] at hopened bounded'
        cases hopened
        exact ⟨iff_of_true ⟨bounded'.position_le, fun herror => absurd herror (by decide)⟩
          fun late => absurd late.1 List.not_mem_nil, bounded'.size_lt⟩
  | seek position =>
      cases hrun
      refine ⟨iff_of_true ?_ fun late => absurd late.1 List.not_mem_nil, ?_⟩
      · unfold fsSeek
        split
        next =>
          have hcode : FS_NOT_MOUNTED ≠ FS_ERROR := by decide
          exact ⟨bounded.position_le, fun herror => absurd herror hcode⟩
        next =>
          have hcode : FS_SUCCESS ≠ FS_ERROR := by decide
          refine ⟨?_, fun herror => absurd herror hcode⟩
          dsimp only
          split <;> omega
      · unfold fsSeek
        split
        next => exact bounded.size_lt
        next => exact bounded.size_lt
  | read size =>
      obtain ⟨⟨_, bytes, _, _⟩, hread, hout⟩ := Option.map_eq_some_iff.mp hrun
      cases hout
      have transfers := fsRead_transfers hbytes hword bounded hrange.1 hread
      exact ⟨transfers.sound_iff bounded hrange.2, transfers.size_lt bounded⟩
  | write buffer =>
      have transfers := fsWrite_transfers hbytes hword bounded hrun
      exact ⟨transfers.sound_iff bounded hrange, transfers.size_lt bounded⟩

/-- **When calls keep the position within the file.** From a handle that `fs_open` has filled,
whatever fails on the disk: the runs of calls in range that are all sound are those in which
no call has a sector of the data fail after another one. -/
theorem position_within_iff (hbytes : 0 < info.bytesPerSector)
    (hword : info.bytesPerSector < 2 ^ 32) (fuel : Nat) {path : List UInt8} {handle file : File}
    {d d₀ : σ} (hopen : fsOpen ata info path handle d = (FS_SUCCESS, file, d₀))
    (calls : List FileCall) (t : File × σ) :
    Run (fun s call t => (FileCall.Step ata info fuel s call t ∧ call.InRange s) ∧
        FileCall.Sound ata info fuel s call t) (file, d₀) calls t ↔
      Run (fun s call t => (FileCall.Step ata info fuel s call t ∧ call.InRange s) ∧
        ¬ call.Late ata info fuel s) (file, d₀) calls t := by
  have bounded : Bounded file := by
    rcases @fsOpen_handle _ ata info path handle d with ⟨hfailed, -⟩ | ⟨-, bounded⟩
    · rw [hopen] at hfailed
      exact absurd rfl hfailed
    · rwa [hopen] at bounded
  refine @run_good_iff _ _ (fun s call t => FileCall.Step ata info fuel s call t ∧ call.InRange s)
    (FileCall.Sound ata info fuel) (fun s call _ => ¬ call.Late ata info fuel s)
    (fun s => Bounded s.1) (fun _ => True) (fun _ _ => trivial) ?_ ?_ _ _ _ trivial bounded
  · intro s call t _ bounded step
    exact (step.1.sound_iff hbytes hword bounded step.2).1
  · intro s call t _ bounded step hnotLate
    obtain ⟨hiff, hsize⟩ := step.1.sound_iff hbytes hword bounded step.2
    exact ⟨(hiff.mpr hnotLate).position_le, hsize⟩

/-! ### A sector that fails after another one -/

/-- A volume with clusters of two sectors, of which sector 5 fails: the second one of cluster 3.
All others hold a directory entry for the file `A` in that cluster, of `high * 256 + low` bytes. -/
def lateDisk (high low : UInt8) : Ata Unit where
  readSector lba d :=
    (if lba = 5 then none
      else some fun a =>
        if a = 0 then 0x41 else if a < 11 then 0x20 else if a = 26 then 3
        else if a = 28 then low else if a = 29 then high else 0, d)
  writeSector lba _ d := (decide (lba ≠ 5), d)

def pairVolume : FsInfo := { smallVolume with sectorsPerCluster := 2, bytesPerCluster := 1024 }

def fileA (size position : Nat) : File :=
  { opened pairVolume ⟨[0x41], size, FS_FILE, 3⟩ with position := position }

theorem fileA_opens :
    fsOpen (lateDisk 4 0) pairVolume [0x41] emptyFile () = (FS_SUCCESS, fileA 1024 0, ()) ∧
      fsOpen (lateDisk 1 255) pairVolume [0x41] emptyFile () = (FS_SUCCESS, fileA 511 0, ()) := by
  decide

/-- The first sector is read, and then the seek goes back to its beginning. -/
theorem position_within_first_sector :
    Run (fun s call t => (FileCall.Step (lateDisk 4 0) pairVolume 3 s call t ∧ call.InRange s) ∧
      FileCall.Sound (lateDisk 4 0) pairVolume 3 s call t) (fileA 1024 0, ()) [.read 512, .seek 0]
      (fileA 1024 0, ()) := by
  apply (position_within_iff (by decide) (by decide) 3 fileA_opens.1 _ _).mpr
  have hread : FileCall.Step (lateDisk 4 0) pairVolume 3 (fileA 1024 0, ()) (.read 512)
      (fileA 1024 512, ()) := ⟨512, by decide⟩
  have hseek : FileCall.Step (lateDisk 4 0) pairVolume 3 (fileA 1024 512, ()) (.seek 0)
      (fileA 1024 0, ()) := ⟨FS_SUCCESS, by decide⟩
  refine .cons ⟨⟨hread, by decide, by decide⟩, fun late => ?_⟩
    (.cons ⟨⟨hseek, trivial⟩, fun late => ?_⟩ (.nil _))
  · exact absurd late.2 (by decide)
  · exact absurd late.2 List.not_mem_nil

/-- The second sector fails in a read and in a write of both. Each returns FS_ERROR with the
position behind the first, and after the write that is past the end of the file. -/
theorem position_passes_end :
    (fsOpen (lateDisk 4 0) pairVolume [0x41] emptyFile () = (FS_SUCCESS, fileA 1024 0, ()) ∧
      Run (FileCall.Step (lateDisk 4 0) pairVolume 3) (fileA 1024 0, ()) [.read 1024]
        (fileA 1024 512, ()) ∧
      ¬ FileCall.Sound (lateDisk 4 0) pairVolume 3 (fileA 1024 0, ()) (.read 1024)
        (fileA 1024 512, ())) ∧
    fsOpen (lateDisk 1 255) pairVolume [0x41] emptyFile () = (FS_SUCCESS, fileA 511 0, ()) ∧
      Run (FileCall.Step (lateDisk 1 255) pairVolume 3) (fileA 511 0, ())
        [.seek 511, .write [7, 7]] (fileA 511 512, ()) ∧
      ¬ FileCall.Sound (lateDisk 1 255) pairVolume 3 (fileA 511 511, ()) (.write [7, 7])
        (fileA 511 512, ()) := by
  refine ⟨⟨fileA_opens.1, ?_, fun sound => ?_⟩, fileA_opens.2, ?_, fun sound => ?_⟩
  · exact .single ⟨FS_ERROR, by decide⟩
  · exact absurd (sound.error_keeps (by decide)).1 (by decide)
  · have hseek : FileCall.Step (lateDisk 1 255) pairVolume 3 (fileA 511 0, ()) (.seek 511)
        (fileA 511 511, ()) := ⟨FS_SUCCESS, by decide⟩
    exact .cons hseek (.single ⟨FS_ERROR, by decide⟩)
  · exact absurd sound.position_le (by decide)

end Curnel.Filesystem
