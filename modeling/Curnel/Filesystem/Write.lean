/-
fs_write writes the buffer, and makes the chain as long as it must be.

`Wrote` says what a part of the call has done to the disk: bytes written at a file
position, clusters appended to the chain, and no other byte touched. It composes;
the seek loop and the writing loop each keep it, and `fs_write_spec` puts the
parts together.
-/

import Curnel.Filesystem.Chains

namespace Curnel.Filesystem

open Lib Bytes Word

variable {σ : Type} {ata : Ata σ} {disk : σ → Store} {info : FsInfo} {first : Nat}

/-! ### What a part of the call does -/

/-- From `m` to `m'`: the chain `cs` has become `cs ++ ns`, with `bytes` at position
`p`, and but for these bytes and the FAT entries of the chain nothing has changed. -/
structure Wrote (info : FsInfo) (first : Nat) (m m' : Store) (cs ns : List Nat) (p : Nat)
    (bytes : List UInt8) : Prop where
  chain : Chain info m' first (cs ++ ns)
  fresh : ∀ c ∈ ns, c ∈ freeSet info m
  free : freeSet info m' = freeSet info m \ ns.toFinset
  fits : p + bytes.length ≤ (cs ++ ns).length * info.bytesPerCluster
  data : ∀ k < bytes.length, m' (location info (cs ++ ns) (p + k)) = bytes.getD k 0
  frame : ∀ a, (∀ k < bytes.length, a ≠ location info (cs ++ ns) (p + k)) →
    (∀ c ∈ cs ++ ns, ¬ (fatAddr info c ≤ a ∧ a < fatAddr info c + 4)) → m' a = m a

namespace Wrote

variable {m m' m'' : Store} {cs ns ns' : List Nat} {p : Nat} {bytes bytes' : List UInt8}

theorem refl (chain : Chain info m first cs) (hp : p ≤ cs.length * info.bytesPerCluster) :
    Wrote info first m m cs [] p [] := by
  refine ⟨by simpa using chain, by simp, by simp, by simpa using hp, by simp, fun _ _ _ => rfl⟩

theorem trans (volume : Volume info) (one : Wrote info first m m' cs ns p bytes)
    (two : Wrote info first m' m'' (cs ++ ns) ns' (p + bytes.length) bytes') :
    Wrote info first m m'' cs (ns ++ ns') p (bytes ++ bytes') := by
  have hassoc : cs ++ (ns ++ ns') = cs ++ ns ++ ns' := (List.append_assoc _ _ _).symm
  have hold : ∀ k < bytes.length,
      location info (cs ++ ns ++ ns') (p + k) = location info (cs ++ ns) (p + k) := fun k hk =>
    location_append (lt_of_lt_of_le (by omega) one.fits)
  refine ⟨hassoc ▸ two.chain, ?_, ?_, ?_, ?_, ?_⟩
  · intro c hc
    rcases List.mem_append.mp hc with hmem | hmem
    · exact one.fresh c hmem
    · have hfree := two.fresh c hmem
      rw [one.free] at hfree
      exact (Finset.mem_sdiff.mp hfree).1
  · rw [two.free, one.free, List.toFinset_append, sdiff_sdiff_left]
    rfl
  · have := two.fits
    rw [hassoc, List.length_append]
    omega
  · intro k hk
    rw [hassoc]
    by_cases hfirst : k < bytes.length
    · rw [List.getD_append _ _ _ _ hfirst, ← one.data k hfirst, ← hold k hfirst]
      refine two.frame _ (fun j hj heq => ?_) fun c hc hin => ?_
      · have hbound := two.fits
        have := location_inj volume two.chain (by omega) (by omega) heq
        omega
      · have := @fatAddr_lt_location info _ (cs ++ ns ++ ns') (two.chain.valid c hc).2 (p + k)
        omega
    · rw [List.length_append] at hk
      have hsecond := two.data (k - bytes.length) (by omega)
      rw [List.getD_append_right _ _ _ _ (by omega), ← hsecond]
      congr 2
      omega
  · intro a hdata hfat
    rw [hassoc] at hdata hfat
    rw [List.length_append] at hdata
    rw [two.frame a ?_ hfat]
    · refine one.frame a (fun k hk => ?_) fun c hc => hfat c (List.mem_append_left _ hc)
      rw [← hold k hk]
      exact hdata k (by omega)
    · intro k hk
      have := hdata (bytes.length + k) (by omega)
      rwa [← Nat.add_assoc] at this

theorem length_le (wrote : Wrote info first m m' cs ns p bytes) :
    (cs ++ ns).length ≤ cs.length + (freeSet info m).card := by
  have hnodup : ns.Nodup := (List.nodup_append.mp wrote.chain.nodup).2.1
  have hsub : ns.toFinset ⊆ freeSet info m := fun x hx =>
    wrote.fresh x (List.mem_toFinset.mp hx)
  have hle := Finset.card_le_card hsub
  rw [List.toFinset_card_of_nodup hnodup] at hle
  rw [List.length_append]
  exact Nat.add_le_add_left hle _

/-- The clusters of the file and the free ones together are as many as before. -/
theorem card_add (wrote : Wrote info first m m' cs ns p bytes) :
    (cs ++ ns).length + (freeSet info m').card = cs.length + (freeSet info m).card := by
  have hnodup : ns.Nodup := (List.nodup_append.mp wrote.chain.nodup).2.1
  have hsub : ns.toFinset ⊆ freeSet info m := fun x hx =>
    wrote.fresh x (List.mem_toFinset.mp hx)
  have hle := wrote.length_le
  rw [wrote.free, Finset.card_sdiff_of_subset hsub, List.toFinset_card_of_nodup hnodup]
  rw [List.length_append] at hle ⊢
  omega

/-- Data written within one cluster. -/
theorem of_data (chain : Chain info m first cs)
    (hfits : p % info.bytesPerCluster + bytes.length ≤ info.bytesPerCluster)
    (hp : p + bytes.length ≤ cs.length * info.bytesPerCluster) :
    Wrote info first m (writeBytes m (location info cs p) bytes) cs [] p bytes := by
  have hlocation : ∀ k < bytes.length, location info cs (p + k) = location info cs p + k :=
    fun k hk => location_add (by omega)
  refine ⟨?_, by simp, by simp [freeSet_writeBytes], by simpa using hp, ?_, ?_⟩
  · rw [List.append_nil]
    exact chain.congr fun c hc => fat_writeBytes (chain.valid c hc).2
  · intro k hk
    rw [List.append_nil, hlocation k hk]
    exact writeBytes_add hk
  · intro a hdata _
    rw [List.append_nil] at hdata
    refine writeBytes_frame m _ bytes fun hin => ?_
    obtain ⟨hlow, hhigh⟩ := hin
    have := hdata (a - location info cs p) (by omega)
    rw [hlocation _ (by omega)] at this
    omega

/-- A free cluster appended to the chain. -/
theorem of_link (volume : Volume info) (chain : Chain info m first cs) (hne : cs ≠ []) {new : Nat}
    (hnew : new ∈ freeSet info m) (hp : p ≤ (cs ++ [new]).length * info.bytesPerCluster) :
    Wrote info first m (linkNew info m (cs.getLast hne) new) cs [new] p [] := by
  have hlast : cs.getLast hne ∈ cs := List.getLast_mem hne
  refine ⟨chain.extend volume hne hnew, by simpa using hnew, ?_, by simpa using hp, by simp, ?_⟩
  · rw [freeSet_linkNew volume hnew (chain.fat_ne_zero hlast)]
    ext x
    simp
    tauto
  · intro a _ hfat
    have hnotLast := hfat _ (List.mem_append_left _ hlast)
    have hnotNew := hfat new (by simp)
    rw [linkNew, setFat_frame _ _ _ _ hnotLast, setFat_frame _ _ _ _ hnotNew]

end Wrote

/-! ### One more cluster -/

/-- The allocation of a cluster where there is a free one. -/
theorem allocate_of_free (reliable : Reliable ata disk) (volume : Volume info) {d : σ}
    (hfree : 0 < (freeSet info (disk d)).card) :
    ∃ c d', fat32AllocateCluster ata info d = (c, d') ∧ c ∈ freeSet info (disk d) ∧ c ≠ 0 ∧
      disk d' = setFat info (disk d) c FAT32_EOC := by
  rcases fat32AllocateCluster_cases reliable volume d with ⟨c, d', hcall, hc, hdisk⟩ | ⟨-, hnone⟩
  · have := (mem_freeSet.mp hc).1.1
    exact ⟨c, d', hcall, hc, by omega, hdisk⟩
  · rw [hnone, Finset.card_empty] at hfree
    omega

/-- The allocation of a cluster where there is none. -/
theorem allocate_of_full (reliable : Reliable ata disk) (volume : Volume info) {d : σ}
    (hfull : (freeSet info (disk d)).card = 0) :
    ∃ d', fat32AllocateCluster ata info d = (0, d') ∧ disk d' = disk d := by
  rcases fat32AllocateCluster_cases reliable volume d with ⟨c, d', -, hc, -⟩ | ⟨hnone, -⟩
  · rw [Finset.card_eq_zero.mp hfull] at hc
    exact absurd hc (Finset.notMem_empty c)
  · exact hnone

/-- Behind the last cluster of a chain: a free one is allocated and linked to it, or there is
none. -/
theorem appendCluster_cases (reliable : Reliable ata disk) (volume : Volume info) {i p : Nat}
    {cs : List Nat} {d : σ} (chain : Chain info (disk d) first cs) (hi : i < cs.length)
    (hlast : i + 1 = cs.length) (hp : p ≤ (cs.length + 1) * info.bytesPerCluster) :
    (∃ new d₁ d₂, fat32AllocateCluster ata info d = (new, d₁) ∧ new ≠ 0 ∧
        (fat32WriteFatEntry ata info cs[i] new d₁).2 = d₂ ∧
        Wrote info first (disk d) (disk d₂) cs [new] p []) ∨
      (freeSet info (disk d)).card = 0 ∧
        ∃ d₁, fat32AllocateCluster ata info d = (0, d₁) ∧ disk d₁ = disk d := by
  have hne : cs ≠ [] := List.ne_nil_of_length_pos (Nat.zero_lt_of_lt hi)
  have hgetLast : cs.getLast hne = cs[i] := by
    rw [List.getLast_eq_getElem]
    congr 1
    omega
  rcases Nat.eq_zero_or_pos (freeSet info (disk d)).card with hfull | hsome
  · exact Or.inr ⟨hfull, allocate_of_full reliable volume hfull⟩
  obtain ⟨new, d₁, hcall, hmem, hnew, hdisk₁⟩ := allocate_of_free reliable volume hsome
  obtain ⟨d₂, hwrite, hdisk₂⟩ := fat32WriteFatEntry_eq reliable volume
    (chain.valid _ (List.getElem_mem hi)).2 new d₁
  have linked := Wrote.of_link volume chain hne hmem (by simpa using hp)
  rw [hgetLast, linkNew, ← hdisk₁, ← hdisk₂] at linked
  exact Or.inl ⟨new, d₁, d₂, hcall, hnew, by rw [hwrite], linked⟩

/-! ### The seek loop -/

/-- The next cluster of a chain, as `fat32_read_fat_entry` gives it. -/
theorem Chain.next {m : Store} {cs : List Nat} (chain : Chain info m first cs) {i : Nat}
    (hi : i < cs.length) :
    (∀ h : i + 1 < cs.length, fat info m cs[i] = cs[i + 1] ∧ ¬ FAT32_EOC ≤ fat info m cs[i]) ∧
      (i + 1 = cs.length → FAT32_EOC ≤ fat info m cs[i]) :=
  chain.linked.next_getElem hi

/-- Up to the cluster of the position, the step to the next cluster does not wrap. -/
theorem nextCluster_eq {position i : Nat}
    (hposition : (position / info.bytesPerCluster + 1) * info.bytesPerCluster < 2 ^ 32)
    (hindex : i ≤ position / info.bytesPerCluster) :
    wadd 32 (i * info.bytesPerCluster) info.bytesPerCluster = (i + 1) * info.bytesPerCluster := by
  have hstep : (i + 1) * info.bytesPerCluster
      = i * info.bytesPerCluster + info.bytesPerCluster := Nat.succ_mul _ _
  have hle : (i + 1) * info.bytesPerCluster
      ≤ (position / info.bytesPerCluster + 1) * info.bytesPerCluster :=
    Nat.mul_le_mul_right _ (Nat.succ_le_succ hindex)
  rw [hstep] at hle ⊢
  exact wadd_of_lt (lt_of_le_of_lt hle hposition)

/-- The search is at the cluster of the position when the next one begins behind it. -/
theorem div_eq_of_last {position size i : Nat} (hpos : 0 < size) (hindex : i ≤ position / size)
    (hlast : ¬ (i + 1) * size ≤ position) : position / size = i := by
  have hnot := mt (Nat.le_div_iff_mul_le hpos).mp hlast
  omega

/-- From cluster `i` of the chain to the cluster of the position; the chain grows if it
ends right before it, unless the disk is full. -/
theorem seekToWrite_cases (reliable : Reliable ata disk) (volume : Volume info) {position : Nat}
    (hposition : (position / info.bytesPerCluster + 1) * info.bytesPerCluster < 2 ^ 32)
    {fuel i : Nat} {cs : List Nat} {d : σ}
    (chain : Chain info (disk d) first cs) (hi : i < cs.length)
    (hindex : i ≤ position / info.bytesPerCluster)
    (hend : position ≤ cs.length * info.bytesPerCluster)
    (hfuel : position / info.bytesPerCluster - i < fuel) :
    (position / info.bytesPerCluster < cs.length + (freeSet info (disk d)).card ∧
      ∃ c d' ns, seekToWrite ata info position fuel (i * info.bytesPerCluster) cs[i] d
          = some (some c, d') ∧
        Wrote info first (disk d) (disk d') cs ns position [] ∧
        (cs ++ ns)[position / info.bytesPerCluster]? = some c) ∨
      cs.length + (freeSet info (disk d)).card ≤ position / info.bytesPerCluster ∧
        ∃ d', seekToWrite ata info position fuel (i * info.bytesPerCluster) cs[i] d
          = some (none, d') := by
  have hpos := volume.bytesPerCluster_pos
  have hdiv := Nat.div_mul_le_self position info.bytesPerCluster
  have hover := Nat.lt_div_mul_add (a := position) hpos
  induction fuel generalizing i cs d with
  | zero => omega
  | succ fuel ih =>
      have hadd := nextCluster_eq hposition hindex
      rw [seekToWrite, hadd]
      by_cases hreached : (i + 1) * info.bytesPerCluster ≤ position
      · rw [if_pos hreached]
        have hmore : i + 1 ≤ position / info.bytesPerCluster :=
          (Nat.le_div_iff_mul_le hpos).mpr hreached
        obtain ⟨d₁, hread, hdisk₁⟩ := fat32ReadFatEntry_eq reliable volume
          (chain.valid _ (List.getElem_mem hi)).2 d
        rw [hread]
        dsimp only
        obtain ⟨hnext, hstop⟩ := chain.next hi
        by_cases hlast : i + 1 = cs.length
        · -- the position is right behind the end of the chain
          rw [if_pos (hstop hlast)]
          have chain₁ : Chain info (disk d₁) first cs := hdisk₁ ▸ chain
          have hroom : position ≤ (cs.length + 1) * info.bytesPerCluster := by
            rw [Nat.add_mul]
            omega
          rcases appendCluster_cases reliable volume chain₁ hi hlast hroom with
            ⟨new, d₂, d₃, hcall, hnew, hwrite, linked⟩ | ⟨hfull, d₂, hcall, -⟩
          · rw [hcall]
            dsimp only
            rw [if_neg hnew, hwrite]
            rw [hdisk₁] at linked
            have hcard := linked.card_add
            have hlength : (cs ++ [new]).length = cs.length + 1 := List.length_append
            have hin : i + 1 < (cs ++ [new]).length := by omega
            have hnewAt : (cs ++ [new])[i + 1] = new := by
              rw [List.getElem_append_right (by omega)]
              simp
            rcases ih (i := i + 1) linked.chain hin hmore (hlength ▸ hroom) (by omega) with
              ⟨hroom', c, d', ns, hrun, wrote, hc⟩ | ⟨hfull, d', hrun⟩
            · rw [hnewAt] at hrun
              refine Or.inl ⟨by omega, c, d', [new] ++ ns, hrun, linked.trans volume wrote, ?_⟩
              rw [← List.append_assoc]
              exact hc
            · rw [hnewAt] at hrun
              exact Or.inr ⟨by omega, d', hrun⟩
          · rw [hdisk₁] at hfull
            rw [hcall]
            dsimp only
            rw [if_pos rfl]
            exact Or.inr ⟨by omega, d₂, rfl⟩
        · have hlt : i + 1 < cs.length := by omega
          rw [if_neg (hnext hlt).2, (hnext hlt).1]
          rw [← hdisk₁] at chain
          have hrest := ih (i := i + 1) chain hlt hmore hend (by omega)
          rw [hdisk₁] at hrest
          exact hrest
      · rw [if_neg hreached]
        have hsame := div_eq_of_last hpos hindex hreached
        refine Or.inl ⟨by omega, cs[i], d, [], rfl, Wrote.refl chain hend, ?_⟩
        rw [List.append_nil, hsame]
        exact List.getElem?_eq_getElem hi

/-! ### The writing loop -/

/-- The sector of a position in a cluster that ends below the last sector: its LBA, and the
place of the position in it. -/
theorem clusterSector_lba {c o : Nat}
    (hbytes : info.bytesPerCluster = 512 * info.sectorsPerCluster) (htwo : 2 ≤ c)
    (hlt : c < 2 ^ 32) (hdata : info.dataStart + (c - 2 + 1) * info.sectorsPerCluster ≤ 2 ^ 32)
    (ho : o < info.bytesPerCluster) :
    wadd 32 (fat32ClusterToLba info c) (o / 512)
        = info.dataStart + (c - 2) * info.sectorsPerCluster + o / 512 ∧
      info.dataStart + (c - 2) * info.sectorsPerCluster + o / 512 < 2 ^ 32 ∧
      512 * (info.dataStart + (c - 2) * info.sectorsPerCluster + o / 512) + o % 512
        = dataAddr info c + o := by
  have hin : o / 512 < info.sectorsPerCluster := by
    rw [hbytes] at ho
    exact Nat.div_lt_of_lt_mul ho
  rw [Nat.add_mul, Nat.one_mul] at hdata
  have hfits : info.dataStart + (c - 2) * info.sectorsPerCluster + o / 512 < 2 ^ 32 := by omega
  refine ⟨?_, hfits, ?_⟩
  · have hsub : wsub 32 c 2 = c - 2 := wsub_of_le hlt htwo
    rw [fat32ClusterToLba, hsub, wmul_of_lt (by omega), wadd_of_lt (a := info.dataStart) (by omega),
      wadd_of_lt hfits]
  · unfold dataAddr
    omega

theorem Volume.data_sector (volume : Volume info) {c o : Nat} (hc : Valid info c)
    (ho : o < info.bytesPerCluster) :
    wadd 32 (fat32ClusterToLba info c) (o / 512)
        = info.dataStart + (c - 2) * info.sectorsPerCluster + o / 512 ∧
      info.dataStart + (c - 2) * info.sectorsPerCluster + o / 512 < 2 ^ 32 ∧
      512 * (info.dataStart + (c - 2) * info.sectorsPerCluster + o / 512) + o % 512
        = dataAddr info c + o := by
  have hlba := volume.lba_le
  have hle := volume.entries_le
  have hmul : (c - 2 + 1) * info.sectorsPerCluster
      ≤ (entries info - 2) * info.sectorsPerCluster :=
    Nat.mul_le_mul_right _ (by have := hc.1; have := hc.2; omega)
  exact clusterSector_lba volume.bytesPerCluster hc.1 (by have := hc.2; omega) (by omega) ho

/-- One sector of the writing loop, up to the question of the next cluster. -/
theorem writeLoop_sector (reliable : Reliable ata disk) (volume : Volume info) {fuel i p o : Nat}
    {cs : List Nat} {src : List UInt8} {d : σ} (chain : Chain info (disk d) first cs)
    (hi : i < cs.length) (ho : o < info.bytesPerCluster) (hp : p = i * info.bytesPerCluster + o)
    (hsrc : src ≠ []) (hlt : p + src.length < 2 ^ 32) :
    ∃ n d', 0 < n ∧ n ≤ src.length ∧ o + n ≤ info.bytesPerCluster ∧
      disk d' = writeBytes (disk d) (location info cs p) (src.take n) ∧
      writeLoop ata info (fuel + 1) cs[i] o p src d =
        if o + n ≥ info.bytesPerCluster then
          let (next, d) := fat32ReadFatEntry ata info cs[i] d'
          if next ≥ FAT32_EOC ∧ (src.drop n).length > 0 then
            let (new, d) := fat32AllocateCluster ata info d
            if new = 0 then some (⟨false, p + n, (src.drop n).length⟩, d)
            else
              let d := (fat32WriteFatEntry ata info cs[i] new d).2
              writeLoop ata info fuel new 0 (p + n) (src.drop n) d
          else writeLoop ata info fuel next 0 (p + n) (src.drop n) d
        else writeLoop ata info fuel cs[i] (o + n) (p + n) (src.drop n) d' := by
  have hvalid := chain.valid _ (List.getElem_mem hi)
  obtain ⟨hadd, hlba, haddr⟩ := volume.data_sector hvalid ho
  have hlocation : dataAddr info cs[i] + o = location info cs p := by
    have hpos := volume.bytesPerCluster_pos
    have hindex : p / info.bytesPerCluster = i := by
      rw [hp, Nat.mul_comm, Nat.mul_add_div hpos, Nat.div_eq_of_lt ho, Nat.add_zero]
    have hoffset : p % info.bytesPerCluster = o := by
      rw [hp, Nat.mul_comm, Nat.mul_add_mod, Nat.mod_eq_of_lt ho]
    rw [location, hindex, hoffset, List.getD_eq_getElem _ _ hi]
  have hlength : 0 < src.length := List.length_pos_iff.mpr hsrc
  have hroom : wsub 32 512 (o % 512) = 512 - o % 512 := wsub_of_le (by decide) (by omega)
  generalize hn : (if 512 - o % 512 > src.length then src.length else 512 - o % 512) = n
  have hn' : 0 < n ∧ n ≤ src.length ∧ o % 512 + n ≤ 512 := by
    rw [← hn]
    split <;> omega
  have hcluster : o + n ≤ info.bytesPerCluster := by
    rw [volume.bytesPerCluster] at ho ⊢
    have hrow : o / 512 + 1 ≤ info.sectorsPerCluster := Nat.div_lt_of_lt_mul ho
    omega
  obtain ⟨sector, d₁, hread, hsector, hdisk₁⟩ := reliable.read _ d hlba
  obtain ⟨d₂, hwrite, hdisk₂⟩ := reliable.write _
    (writeBytes sector (o % 512) (src.take n)) d₁ hlba
  refine ⟨n, d₂, hn'.1, hn'.2.1, hcluster, ?_, ?_⟩
  · have htake : (src.take n).length = n := by
      rw [List.length_take]
      omega
    have hpart : o % 512 + (src.take n).length ≤ 512 := by
      rw [htake]
      exact hn'.2.2
    have hpatch := IsSector.patch hsector hpart fun k => (src.take n).getD k 0
    rw [hdisk₂, hdisk₁, ← hlocation, ← haddr]
    exact hpatch
  · have hover : i * info.bytesPerCluster + o + src.length < 2 ^ 32 := by rwa [← hp]
    have hpos' : wadd 32 o n = o + n := wadd_of_lt (by omega)
    have hposition : wadd 32 p n = p + n := wadd_of_lt (by omega)
    rw [writeLoop, if_pos hlength, volume.bytesPerSector]
    simp only [hadd, hread, hroom, hn, hwrite, hpos', hposition]

theorem writeLoop_nil {fuel cluster o p : Nat} {d : σ} :
    writeLoop ata info (fuel + 1) cluster o p [] d = some (⟨false, p, 0⟩, d) := by
  rw [writeLoop, if_neg (by simp)]

/-- Position `p` of the file is offset `o` of `cluster`, which is in the chain. -/
def Stands (info : FsInfo) (cs : List Nat) (cluster o p : Nat) : Prop :=
  ∃ i, cs[i]? = some cluster ∧ o < info.bytesPerCluster ∧ p = i * info.bytesPerCluster + o

/-- One turn of the writing loop: a part of a sector is written, and the loop goes on behind it,
or the chain is at its end and the disk is full. -/
theorem writeLoop_turn (fuel : Nat) (reliable : Reliable ata disk) (volume : Volume info)
    {cluster o p : Nat} {cs : List Nat} {src : List UInt8} {d : σ}
    (chain : Chain info (disk d) first cs) (stands : Stands info cs cluster o p) (hsrc : src ≠ [])
    (hlt : p + src.length < 2 ^ 32) :
    ∃ n d' ns, 0 < n ∧ n ≤ src.length ∧
      Wrote info first (disk d) (disk d') cs ns p (src.take n) ∧
      ((∃ cluster' o', (src.drop n ≠ [] → Stands info (cs ++ ns) cluster' o' (p + n)) ∧
          writeLoop ata info (fuel + 1) cluster o p src d
            = writeLoop ata info fuel cluster' o' (p + n) (src.drop n) d') ∨
        (freeSet info (disk d')).card = 0 ∧ (cs ++ ns).length * info.bytesPerCluster ≤ p + n ∧
          writeLoop ata info (fuel + 1) cluster o p src d
            = some (⟨false, p + n, src.length - n⟩, d')) := by
  obtain ⟨i, hcluster, ho, hp⟩ := stands
  obtain ⟨hi, rfl⟩ := List.getElem?_eq_some_iff.mp hcluster
  obtain ⟨n, d₁, hn, hle, hin, hdisk₁, hrun⟩ :=
    @writeLoop_sector _ _ _ _ _ reliable volume fuel _ _ _ _ _ _ chain hi ho hp hsrc hlt
  have hpos := volume.bytesPerCluster_pos
  have htake : (src.take n).length = n := List.length_take_of_le hle
  have hoffset : p % info.bytesPerCluster = o := by
    rw [hp, Nat.mul_comm, Nat.mul_add_mod, Nat.mod_eq_of_lt ho]
  have hcover : (i + 1) * info.bytesPerCluster ≤ cs.length * info.bytesPerCluster :=
    Nat.mul_le_mul_right _ hi
  rw [Nat.add_mul, Nat.one_mul] at hcover
  have wrote := Wrote.of_data chain (by rw [hoffset, htake]; exact hin)
    (by rw [htake]; omega : p + (src.take n).length ≤ cs.length * info.bytesPerCluster)
  rw [← hdisk₁] at wrote
  have chain₁ : Chain info (disk d₁) first cs := by
    have := wrote.chain
    rwa [List.append_nil] at this
  rw [hrun]
  by_cases hfull : o + n ≥ info.bytesPerCluster
  · -- the cluster is full
    rw [if_pos hfull]
    have hnextPos : p + n = (i + 1) * info.bytesPerCluster + 0 := by
      rw [Nat.add_mul, Nat.one_mul]
      omega
    obtain ⟨d₂, hread, hdisk₂⟩ := fat32ReadFatEntry_eq reliable volume
      (chain₁.valid _ (List.getElem_mem hi)).2 d₁
    rw [hread]
    dsimp only
    obtain ⟨hnext, hstop⟩ := chain₁.next hi
    rw [← hdisk₂] at wrote
    by_cases hgrow : FAT32_EOC ≤ fat info (disk d₁) cs[i] ∧ (src.drop n).length > 0
    · rw [if_pos hgrow]
      have hlast : i + 1 = cs.length := by
        by_contra hne
        exact (hnext (by omega)).2 hgrow.1
      have hroom : p + n ≤ (cs.length + 1) * info.bytesPerCluster := by
        rw [Nat.add_mul]
        omega
      rcases appendCluster_cases reliable volume (hdisk₂ ▸ chain₁) hi hlast hroom with
        ⟨new, d₃, d₄, hcall, hnew, hwrite, linked⟩ | ⟨hnone, d₃, hcall, hdisk₃⟩
      · rw [hcall]
        dsimp only
        rw [if_neg hnew, hwrite]
        have hnewAt : (cs ++ [new])[i + 1]? = some new := by
          rw [hlast, List.getElem?_concat_length]
        rw [← htake, ← List.append_nil cs] at linked
        have both := wrote.trans volume linked
        rw [List.nil_append, List.append_nil] at both
        exact ⟨n, d₄, [new], hn, hle, both,
          Or.inl ⟨new, 0, fun _ => ⟨i + 1, hnewAt, hpos, hnextPos⟩, rfl⟩⟩
      · rw [hcall]
        dsimp only
        rw [if_pos rfl, List.length_drop]
        rw [← hdisk₃] at wrote hnone
        refine ⟨n, d₃, [], hn, hle, wrote, Or.inr ⟨hnone, ?_, rfl⟩⟩
        rw [List.append_nil, ← hlast, hnextPos]
        exact Nat.le_add_right _ _
    · rw [if_neg hgrow]
      refine ⟨n, d₂, [], hn, hle, wrote, Or.inl ⟨_, 0, fun hmore => ?_, rfl⟩⟩
      have hlt' : i + 1 < cs.length := by
        by_contra hge
        exact hgrow ⟨hstop (by omega), List.length_pos_iff.mpr hmore⟩
      rw [List.append_nil, (hnext hlt').1]
      exact ⟨i + 1, List.getElem?_eq_getElem hlt', hpos, hnextPos⟩
  · rw [if_neg hfull]
    refine ⟨n, d₁, [], hn, hle, wrote, Or.inl ⟨cs[i], o + n, fun _ => ?_, rfl⟩⟩
    rw [List.append_nil]
    exact ⟨i, hcluster, by omega, by omega⟩

/-- The writing loop writes what there is room for. -/
theorem writeLoop_cases (reliable : Reliable ata disk) (volume : Volume info)
    {fuel cluster o p : Nat} {cs : List Nat} {src : List UInt8} {d : σ}
    (chain : Chain info (disk d) first cs) (hat : src ≠ [] → Stands info cs cluster o p)
    (hend : p ≤ cs.length * info.bytesPerCluster) (hlt : p + src.length < 2 ^ 32)
    (hfuel : src.length < fuel) :
    ∃ k d' ns, k ≤ src.length ∧ writeLoop ata info fuel cluster o p src d
        = some (⟨false, p + k, src.length - k⟩, d') ∧
      Wrote info first (disk d) (disk d') cs ns p (src.take k) ∧
      (k = src.length ∨
        (cs.length + (freeSet info (disk d)).card) * info.bytesPerCluster ≤ p + k) := by
  induction fuel generalizing cluster o p cs src d with
  | zero => omega
  | succ fuel ih =>
      by_cases hsrc : src = []
      · subst hsrc
        exact ⟨0, d, [], Nat.le_refl 0, writeLoop_nil, Wrote.refl chain hend, Or.inl rfl⟩
      obtain ⟨n, d₁, ns, hn, hle, wrote, hturn⟩ :=
        writeLoop_turn fuel reliable volume chain (hat hsrc) hsrc hlt
      rw [← wrote.card_add]
      rcases hturn with ⟨cluster', o', hat', hrun⟩ | ⟨hnone, hfull, hrun⟩
      · -- the rest of the loop goes on from what this turn wrote
        have htake : (src.take n).length = n := List.length_take_of_le hle
        have hdrop : (src.drop n).length = src.length - n := List.length_drop
        have hfits := wrote.fits
        rw [htake] at hfits
        obtain ⟨k, d', ns', hk, hloop, rest, hall⟩ :=
          ih wrote.chain hat' hfits (by omega) (by omega)
        rw [hdrop] at hk hloop hall
        refine ⟨n + k, d', ns ++ ns', by omega, ?_, ?_, by omega⟩
        · rw [hrun, hloop, Nat.add_assoc, Nat.sub_sub]
        · rw [List.take_add]
          exact wrote.trans volume (by rwa [htake])
      · refine ⟨n, d₁, ns, hle, hrun, wrote, Or.inr ?_⟩
        rw [hnone]
        exact hfull

/-! ### The whole call -/

/-- A handle of a regular file: an empty file without a cluster, or a chain that is
long enough for the size. -/
structure Handle (info : FsInfo) (m : Store) (file : File) (cs : List Nat) : Prop where
  regular : file.dirent.flags &&& FS_DIRECTORY = 0
  chain : file.dirent.cluster = 0 ∧ cs = [] ∨ cs ≠ [] ∧ Chain info m file.dirent.cluster cs
  size_le : file.dirent.size ≤ cs.length * info.bytesPerCluster

/-- The bytes of a file. -/
def fileBytes (info : FsInfo) (m : Store) (file : File) (cs : List Nat) : List UInt8 :=
  chainBytes info m cs file.dirent.size

/-- How long `fs_write` makes the chain: it goes to the cluster of the position even if
it has nothing to write, and then as far as the bytes reach. -/
def clustersNeeded (info : FsInfo) (position n : Nat) : Nat :=
  max (position / info.bytesPerCluster + 1)
    ((position + n + (info.bytesPerCluster - 1)) / info.bytesPerCluster)

/-- The cluster keeps its FAT entry and its data. -/
def SameCluster (info : FsInfo) (m m' : Store) (c : Nat) : Prop :=
  ∀ a, (fatAddr info c ≤ a ∧ a < fatAddr info c + 4) ∨
    (dataAddr info c ≤ a ∧ a < dataAddr info c + info.bytesPerCluster) → m' a = m a

theorem clustersNeeded_le (volume : Volume info) {position n k : Nat} :
    clustersNeeded info position n ≤ k ↔
      position / info.bytesPerCluster < k ∧ position + n ≤ k * info.bytesPerCluster := by
  have hpos := volume.bytesPerCluster_pos
  unfold clustersNeeded
  rw [Nat.max_le, Nat.succ_le_iff, Nat.div_le_iff_le_mul_add_pred hpos, Nat.mul_comm k]
  refine and_congr_right fun _ => ?_
  omega

namespace Wrote

variable {m m' : Store} {cs ns : List Nat} {p : Nat} {bytes : List UInt8}

/-- A cluster of the volume that is neither free nor in the file keeps what it has. -/
theorem sameCluster (volume : Volume info) (wrote : Wrote info first m m' cs ns p bytes)
    {c : Nat} (hc : Valid info c) (hout : c ∉ cs) (hused : fat info m c ≠ 0) :
    SameCluster info m m' c := by
  have hother : ∀ x ∈ cs ++ ns, c ≠ x := by
    rintro x hx rfl
    rcases List.mem_append.mp hx with hmem | hmem
    · exact hout hmem
    · exact hused (mem_freeSet.mp (wrote.fresh c hmem)).2
  intro a ha
  refine wrote.frame a (fun k hk heq => ?_) fun x hx hin => ?_
  · -- the address of a file position lies in a cluster of the file
    have hbound := wrote.fits
    have hk' : p + k < (cs ++ ns).length * info.bytesPerCluster := by omega
    have hin := index_lt hk'
    rw [location_eq hin] at heq
    have hmem := List.getElem_mem hin
    have hmod := Nat.mod_lt (p + k) volume.bytesPerCluster_pos
    rcases ha with hfat | hdata
    · have := fatAddr_lt_dataAddr hc.2 (cs ++ ns)[(p + k) / info.bytesPerCluster]
      omega
    · have := dataAddr_disjoint volume hc (wrote.chain.valid _ hmem) (hother _ hmem)
      omega
  · rcases ha with hfat | hdata
    · have := @fatAddr_disjoint info _ _ (hother x hx)
      omega
    · have := fatAddr_lt_dataAddr (wrote.chain.valid x hx).2 c
      omega

/-- The bytes of a file after the call. -/
theorem chainBytes_eq (volume : Volume info) (wrote : Wrote info first m m' cs ns p bytes)
    {size : Nat} (hp : p ≤ size) (hsize : size ≤ cs.length * info.bytesPerCluster) :
    chainBytes info m' (cs ++ ns) (max size (p + bytes.length))
      = (chainBytes info m cs size).take p ++ bytes
        ++ (chainBytes info m cs size).drop (p + bytes.length) := by
  have hfits := wrote.fits
  have hlonger : cs.length * info.bytesPerCluster
      ≤ (cs ++ ns).length * info.bytesPerCluster := by
    refine Nat.mul_le_mul_right _ ?_
    rw [List.length_append]
    omega
  -- a position outside the range written holds what it held
  have hsame : ∀ k < size, ¬ (p ≤ k ∧ k < p + bytes.length) →
      m' (location info (cs ++ ns) k) = m (location info cs k) := by
    intro k hk hout
    rw [← @location_append _ _ ns _ (by omega : k < cs.length * info.bytesPerCluster)]
    refine wrote.frame _ (fun j hj heq => ?_) fun c hc hin => ?_
    · have := location_inj volume wrote.chain (by omega) (by omega) heq
      omega
    · have := @fatAddr_lt_location info _ (cs ++ ns) (wrote.chain.valid c hc).2 k
      omega
  have hold : (chainBytes info m cs size).length = size := by simp [chainBytes]
  have hread : ∀ k, k < size →
      (chainBytes info m cs size)[k]? = some (m (location info cs k)) := by
    intro k hk
    simp [chainBytes, hk]
  apply List.ext_getElem?
  intro k
  have htake : ((chainBytes info m cs size).take p).length = p := by
    rw [List.length_take, hold]
    omega
  by_cases hk : k < max size (p + bytes.length)
  · have hnew : (chainBytes info m' (cs ++ ns) (max size (p + bytes.length)))[k]?
        = some (m' (location info (cs ++ ns) k)) := by
      simp only [chainBytes, List.getElem?_map, List.getElem?_range hk, Option.map_some]
    rw [hnew]
    by_cases hbefore : k < p
    · rw [List.getElem?_append_left (by rw [List.length_append, htake]; omega),
        List.getElem?_append_left (by rw [htake]; omega), List.getElem?_take_of_lt hbefore,
        hread k (by omega), hsame k (by omega) (by omega)]
    by_cases hin : k < p + bytes.length
    · rw [List.getElem?_append_left (by rw [List.length_append, htake]; omega),
        List.getElem?_append_right (by rw [htake]; omega), htake,
        List.getElem?_eq_getElem (by omega)]
      have hdata := wrote.data (k - p) (by omega)
      rw [Nat.add_sub_cancel' (by omega : p ≤ k), List.getD_eq_getElem _ _ (by omega)] at hdata
      rw [hdata]
    · rw [List.getElem?_append_right (by rw [List.length_append, htake]; omega),
        List.length_append, htake, List.getElem?_drop,
        Nat.add_sub_cancel' (by omega : p + bytes.length ≤ k), hread k (by omega),
        hsame k (by omega) (by omega)]
  · have hlength : ((chainBytes info m cs size).take p ++ bytes
        ++ (chainBytes info m cs size).drop (p + bytes.length)).length ≤ k := by
      rw [List.length_append, List.length_append, htake, List.length_drop, hold]
      omega
    rw [List.getElem?_eq_none hlength, List.getElem?_eq_none]
    simp only [chainBytes, List.length_map, List.length_range]
    omega

end Wrote

theorem FS_ERROR_ne (n : Nat) : FS_ERROR ≠ (n : Int) := by
  rw [FS_ERROR]
  omega

/-- `fs_write` once the file has a cluster: it writes the buffer if the disk has the clusters
for it, and otherwise does not return its length. -/
theorem writeFrom_cases (reliable : Reliable ata disk) (volume : Volume info) {file : File}
    {cs : List Nat} {buffer : List UInt8} {d : σ} {fuel : Nat}
    (chain : Chain info (disk d) file.dirent.cluster cs) (hne : cs ≠ [])
    (hend : file.position ≤ cs.length * info.bytesPerCluster) (hbuffer : buffer.length < 2 ^ 31)
    (hcluster : (file.position / info.bytesPerCluster + 1) * info.bytesPerCluster < 2 ^ 32)
    (hlt : file.position + buffer.length < 2 ^ 32)
    (hfuel : file.position + buffer.length < fuel) :
    (clustersNeeded info file.position buffer.length
        ≤ cs.length + (freeSet info (disk d)).card ∧
      ∃ d' ns, writeFrom ata info fuel file buffer d = some ((buffer.length : Int),
          { file with
            position := file.position + buffer.length
            dirent := { file.dirent with
              size := max file.dirent.size (file.position + buffer.length) } }, d') ∧
        Wrote info file.dirent.cluster (disk d) (disk d') cs ns file.position buffer) ∨
      cs.length + (freeSet info (disk d)).card
          < clustersNeeded info file.position buffer.length ∧
        ∃ r file' d', writeFrom ata info fuel file buffer d = some (r, file', d') ∧
          r ≠ (buffer.length : Int) := by
  have hpos := volume.bytesPerCluster_pos
  have hlength : 0 < cs.length := List.length_pos_iff.mpr hne
  have hfirst : cs[0] = file.dirent.cluster := by
    rw [← chain.linked.head_eq hne, List.head_eq_getElem]
  have hquotient := Nat.div_le_self file.position info.bytesPerCluster
  have hseek := @seekToWrite_cases _ _ _ _ _ reliable volume file.position hcluster fuel 0 cs d
    chain hlength (Nat.zero_le _) hend (by omega)
  rw [Nat.zero_mul, hfirst] at hseek
  rcases hseek with ⟨hindex, c, d₁, ns, hseek, sought, hc⟩ | ⟨hfull, d₁, hseek⟩
  · have stands : Stands info (cs ++ ns) c (file.position % info.bytesPerCluster)
        file.position := by
      refine ⟨_, hc, Nat.mod_lt file.position hpos, ?_⟩
      rw [Nat.mul_comm]
      exact (Nat.div_add_mod _ _).symm
    obtain ⟨k, d₂, ns', hk, hloop, wrote, hall⟩ := writeLoop_cases reliable volume sought.chain
      (fun _ => stands) (by simpa using sought.fits) hlt (by omega : buffer.length < fuel)
    have hcard := sought.card_add
    rw [hcard] at hall
    have whole := sought.trans volume (by simpa using wrote)
    rw [List.nil_append] at whole
    rw [writeFrom, hseek]
    simp only [hloop]
    by_cases hdone : k = buffer.length
    · subst hdone
      rw [List.take_length] at whole
      refine Or.inl ⟨(clustersNeeded_le volume).mpr ⟨hindex, ?_⟩, d₂, ns ++ ns', ?_, whole⟩
      · exact le_trans whole.fits (Nat.mul_le_mul_right _ whole.length_le)
      · rw [Nat.sub_self, Nat.sub_zero, toInt32_of_lt hbuffer]
        split
        next hgrown => rw [Nat.max_eq_right (by omega)]
        next hgrown => rw [Nat.max_eq_left (by omega)]
    · refine Or.inr ⟨?_, _, _, d₂, rfl, ?_⟩
      · have hover := hall.resolve_left hdone
        refine Nat.lt_of_not_le fun henough => ?_
        have := ((clustersNeeded_le volume).mp henough).2
        omega
      · rw [Nat.sub_sub_self hk, toInt32_of_lt (by omega)]
        omega
  · refine Or.inr ⟨?_, FS_ERROR, file, d₁, by rw [writeFrom, hseek], FS_ERROR_ne _⟩
    refine Nat.lt_of_not_le fun henough => ?_
    have := ((clustersNeeded_le volume).mp henough).1
    omega

/-- The clusters of a chain apart from the file's keep what they have. -/
def OthersKept (info : FsInfo) (m m' : Store) (cs : List Nat) : Prop :=
  ∀ start others, Chain info m start others → others.Disjoint cs →
    ∀ c ∈ others, SameCluster info m m' c

/-- What a call writes is none of the other chains'. -/
theorem Wrote.othersKept (volume : Volume info) {m m' : Store} {cs ns : List Nat} {p : Nat}
    {bytes : List UInt8} (wrote : Wrote info first m m' cs ns p bytes) :
    OthersKept info m m' cs := by
  intro start others chain hdisjoint c hc
  exact wrote.sameCluster volume (chain.valid c hc) (fun hmem => hdisjoint hc hmem)
    (chain.fat_ne_zero hc)

/-- Neither is the FAT entry of a cluster that was free. -/
theorem OthersKept.of_free {m m' : Store} {new v : Nat} (hnew : new ∈ freeSet info m)
    (rest : OthersKept info (setFat info m new v) m' [new]) : OthersKept info m m' [] := by
  intro start others chain _ c hc
  obtain ⟨hvalid, hfree⟩ := mem_freeSet.mp hnew
  have hother : ∀ x ∈ others, x ≠ new := fun x hx heq =>
    chain.fat_ne_zero hx (heq ▸ hfree)
  have chain' := chain.congr fun x hx => fat_setFat_other (v := v) (hother x hx)
  have hdisjoint : others.Disjoint [new] := fun x hx hx' =>
    hother x hx (List.mem_singleton.mp hx')
  intro a ha
  rw [rest start others chain' hdisjoint c hc a ha]
  refine setFat_frame info m new v fun hin => ?_
  obtain ⟨hlow, hhigh⟩ := hin
  rcases ha with hfat | hdata
  · have := @fatAddr_disjoint info _ _ (hother c hc)
    omega
  · have := @fatAddr_lt_dataAddr info _ hvalid.2 c
    omega

/-- What a call that writes the whole buffer does: the buffer is at the position, the chain is
well formed again, and no other chain is touched. -/
structure Stored (info : FsInfo) (m m' : Store) (file file' : File) (cs ns : List Nat)
    (buffer : List UInt8) : Prop where
  handle : Handle info m' file' (cs ++ ns)
  bytes : fileBytes info m' file' (cs ++ ns)
    = (fileBytes info m file cs).take file.position ++ buffer
      ++ (fileBytes info m file cs).drop (file.position + buffer.length)
  size : file'.dirent.size = max file.dirent.size (file.position + buffer.length)
  position : file'.position = file.position + buffer.length
  cluster : cs ≠ [] → file'.dirent.cluster = file.dirent.cluster
  fresh : ∀ c ∈ ns, c ∈ freeSet info m
  others : OthersKept info m m' cs

/-- On a disk that works: the buffer is written if there are the clusters for it, and
otherwise the call does not return the buffer's length. -/
theorem fsWrite_cases (reliable : Reliable ata disk) (volume : Volume info) {file : File}
    {cs : List Nat} {buffer : List UInt8} {d : σ} (handle : Handle info (disk d) file cs)
    (hposition : file.position ≤ file.dirent.size) (hbuffer : buffer.length < 2 ^ 31)
    (hcluster : (file.position / info.bytesPerCluster + 1) * info.bytesPerCluster < 2 ^ 32)
    (hend : file.position + buffer.length < 2 ^ 32)
    {fuel : Nat} (hfuel : file.position + buffer.length < fuel) :
    (clustersNeeded info file.position buffer.length
        ≤ cs.length + (freeSet info (disk d)).card ∧
      ∃ file' d' ns, fsWrite ata info fuel file buffer d
          = some ((buffer.length : Int), file', d') ∧
        Stored info (disk d) (disk d') file file' cs ns buffer) ∨
      cs.length + (freeSet info (disk d)).card
          < clustersNeeded info file.position buffer.length ∧
        ∃ r file' d', fsWrite ata info fuel file buffer d = some (r, file', d') ∧
          r ≠ (buffer.length : Int) := by
  have hpos := volume.bytesPerCluster_pos
  have hmounted := volume.not_unmounted
  rw [fsWrite, if_neg hmounted, if_neg (not_not.mpr handle.regular)]
  rcases handle.chain with ⟨hnone, rfl⟩ | ⟨hne, chain⟩
  · -- an empty file gets its first cluster
    have hempty : file.dirent.size = 0 := by
      have := handle.size_le
      rw [List.length_nil, Nat.zero_mul] at this
      omega
    have hzero : file.position = 0 := by omega
    have hneed : 0 < clustersNeeded info file.position buffer.length :=
      lt_of_lt_of_le (Nat.succ_pos _) (Nat.le_max_left _ _)
    rw [if_pos hnone, List.length_nil, Nat.zero_add]
    rcases Nat.eq_zero_or_pos (freeSet info (disk d)).card with hfull | hsome
    · obtain ⟨d₁, halloc, -⟩ := allocate_of_full reliable volume hfull
      rw [halloc]
      dsimp only
      rw [if_pos rfl, hfull]
      exact Or.inr ⟨hneed, FS_ERROR, file, d₁, rfl, FS_ERROR_ne _⟩
    obtain ⟨new, d₁, halloc, hmem, hnew, hdisk₁⟩ := allocate_of_free reliable volume hsome
    have chain := Chain.single volume hmem
    rw [← hdisk₁] at chain
    have hcard : (freeSet info (disk d₁)).card + 1 = (freeSet info (disk d)).card := by
      rw [hdisk₁, freeSet_setFat (by decide)]
      exact Finset.card_erase_add_one hmem
    have hsingle : ([new] : List Nat).length + (freeSet info (disk d₁)).card
        = (freeSet info (disk d)).card := by
      rw [List.length_singleton, Nat.add_comm]
      exact hcard
    rw [halloc]
    dsimp only
    rw [if_neg hnew]
    rcases @writeFrom_cases _ _ _ _ reliable volume
        { file with dirent := { file.dirent with cluster := new }, currentCluster := new }
        [new] buffer d₁ fuel chain (List.cons_ne_nil _ _) (by dsimp only; omega) hbuffer hcluster
        hend hfuel with
      ⟨henough, d', ns, hwrite, wrote⟩ | ⟨hfull, r, file', d', hwrite, hr⟩
    · dsimp only at hwrite wrote
      have hfits := wrote.fits
      refine Or.inl ⟨hsingle ▸ henough, _, d', [new] ++ ns, hwrite, ⟨handle.regular,
        .inr ⟨List.cons_ne_nil _ _, wrote.chain⟩, ?_⟩, ?_, rfl, rfl, fun h => absurd rfl h, ?_, ?_⟩
      · rw [List.nil_append]
        dsimp only
        omega
      · have hbytes := @Wrote.chainBytes_eq _ _ _ _ _ _ _ _ volume wrote 0 (by omega)
          (Nat.zero_le _)
        simpa [fileBytes, chainBytes, hempty, hzero] using hbytes
      · intro c hc
        rcases List.mem_append.mp hc with hone | hmore
        · rwa [List.mem_singleton.mp hone]
        · have := wrote.fresh c hmore
          rw [hdisk₁, freeSet_setFat (by decide)] at this
          exact Finset.mem_of_mem_erase this
      · rw [hdisk₁] at wrote
        exact .of_free hmem (wrote.othersKept volume)
    · exact Or.inr ⟨hsingle ▸ hfull, r, file', d', hwrite, hr⟩
  · have hused : ¬ file.dirent.cluster = 0 := by
      have hfirst := chain.linked.head_eq hne
      have := (chain.valid _ (List.head_mem hne)).1
      omega
    have hsize_le := handle.size_le
    rw [if_neg hused]
    rcases @writeFrom_cases _ _ _ _ reliable volume file cs buffer d fuel chain hne (by omega)
        hbuffer hcluster hend hfuel with
      ⟨henough, d', ns, hwrite, wrote⟩ | ⟨hfull, r, file', d', hwrite, hr⟩
    · have hfits := wrote.fits
      have hlonger : cs.length * info.bytesPerCluster
          ≤ (cs ++ ns).length * info.bytesPerCluster := by
        refine Nat.mul_le_mul_right _ ?_
        rw [List.length_append]
        omega
      refine Or.inl ⟨henough, _, d', ns, hwrite, ⟨handle.regular, .inr ⟨?_, wrote.chain⟩, ?_⟩, ?_,
        rfl, rfl, fun _ => rfl, wrote.fresh, wrote.othersKept volume⟩
      · exact fun hnil => hne (List.append_eq_nil_iff.mp hnil).1
      · dsimp only
        omega
      · exact wrote.chainBytes_eq volume hposition hsize_le
    · exact Or.inr ⟨hfull, r, file', d', hwrite, hr⟩

/-- On a disk that works, with enough free clusters: the buffer is written at the
position, the chain is well formed again, and no other chain is touched. -/
theorem fs_write_spec (reliable : Reliable ata disk) (volume : Volume info) {file : File}
    {cs : List Nat} {buffer : List UInt8} {d : σ} (handle : Handle info (disk d) file cs)
    (hposition : file.position ≤ file.dirent.size) (hbuffer : buffer.length < 2 ^ 31)
    (hend : file.position + buffer.length < 2 ^ 32 - info.bytesPerCluster)
    (enough : clustersNeeded info file.position buffer.length
      ≤ cs.length + (freeSet info (disk d)).card)
    {fuel : Nat} (hfuel : file.position + buffer.length < fuel) :
    ∃ file' d' ns, fsWrite ata info fuel file buffer d = some ((buffer.length : Int), file', d') ∧
      Handle info (disk d') file' (cs ++ ns) ∧
      fileBytes info (disk d') file' (cs ++ ns)
        = (fileBytes info (disk d) file cs).take file.position ++ buffer
          ++ (fileBytes info (disk d) file cs).drop (file.position + buffer.length) ∧
      file'.dirent.size = max file.dirent.size (file.position + buffer.length) ∧
      file'.position = file.position + buffer.length ∧
      OthersKept info (disk d) (disk d') cs := by
  have hcluster : (file.position / info.bytesPerCluster + 1) * info.bytesPerCluster < 2 ^ 32 := by
    have := Nat.div_mul_le_self file.position info.bytesPerCluster
    rw [Nat.add_mul, Nat.one_mul]
    omega
  rcases fsWrite_cases reliable volume handle hposition hbuffer hcluster (by omega) hfuel with
    ⟨-, file', d', ns, hrun, stored⟩ | ⟨hfull, -⟩
  · exact ⟨file', d', ns, hrun, stored.handle, stored.bytes, stored.size, stored.position,
      stored.others⟩
  · omega

/-! ### A small volume -/

/-- A volume with one sector of FAT, and clusters of one sector. -/
def smallVolume : FsInfo where
  device := 0
  fatStart := 1
  dataStart := 2
  rootCluster := 2
  sectorsPerCluster := 1
  bytesPerSector := 512
  bytesPerCluster := 512
  mounted := true

theorem smallVolume_volume : Volume smallVolume where
  mounted := rfl
  bytesPerSector := rfl
  sectorsPerCluster := Nat.one_pos
  bytesPerCluster := rfl
  fatStart := by decide
  dataStart := by decide
  entries_le := by decide
  lba_le := by decide

/-- An empty regular file. -/
def emptyFile : File where
  dirent := { name := [], size := 0, flags := FS_FILE, cluster := 0 }
  position := 0
  currentCluster := 0
  device := 0

/-- Three bytes written to an empty file. -/
theorem fs_write_spec_three_bytes :
    ∃ file' d' ns, fsWrite memoryDisk smallVolume 4 emptyFile [1, 2, 3] (fun _ => 0)
        = some (3, file', d') ∧
      Handle smallVolume d' file' ns ∧ fileBytes smallVolume d' file' ns = [1, 2, 3] ∧
      file'.dirent.size = 3 ∧ file'.position = 3 := by
  have handle : Handle smallVolume (id fun _ => 0) emptyFile [] :=
    ⟨rfl, .inl ⟨rfl, rfl⟩, Nat.le_refl 0⟩
  have hfree : 2 ∈ freeSet smallVolume (id fun _ => 0) :=
    mem_freeSet.mpr ⟨⟨Nat.le_refl 2, by decide⟩, by decide⟩
  have enough : clustersNeeded smallVolume 0 3
      ≤ ([] : List Nat).length + (freeSet smallVolume (id fun _ => 0)).card := by
    have := Finset.card_pos.mpr ⟨2, hfree⟩
    have hone : clustersNeeded smallVolume 0 3 = 1 := rfl
    rw [hone]
    omega
  obtain ⟨file', d', ns, hrun, handle', hbytes, hsize, hposition, -⟩ :=
    @fs_write_spec _ _ _ _ memoryDisk_reliable smallVolume_volume emptyFile [] [1, 2, 3]
      (fun _ => 0) handle (Nat.le_refl 0) (by decide) (by decide) enough 4 (by decide)
  exact ⟨file', d', ns, hrun, handle', hbytes, hsize, hposition⟩

end Curnel.Filesystem
