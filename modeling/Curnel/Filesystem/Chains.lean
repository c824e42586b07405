/-
Chains of clusters, and the bytes in them.

The file positions of a chain are laid out over the data of its clusters;
`location` says where, and no two positions share a byte (`location_inj`). Writing
the data of one cluster changes the positions it covers and no others, and
appending a free cluster to a chain (`Chain.extend`) touches two FAT entries.
-/

import Mathlib.Data.List.Nodup
import Curnel.Filesystem.Fat
import Curnel.Lib.Linked

namespace Curnel.Filesystem

open Lib Bytes Word

variable {info : FsInfo} {m m' : Store} {first c : Nat} {cs ns : List Nat}

/-! ### Chains -/

/-- Following the FAT from `first` leads through the clusters `cs` of the volume,
all different, to an end-of-chain mark. -/
structure Chain (info : FsInfo) (m : Store) (first : Nat) (cs : List Nat) : Prop where
  linked : Linked (fat info m) (FAT32_EOC ≤ ·) first cs
  nodup : cs.Nodup
  valid : ∀ c ∈ cs, Valid info c

theorem Volume.not_eoc (volume : Volume info) (hc : c < entries info) : ¬ FAT32_EOC ≤ c := by
  have := volume.entries_le
  unfold FAT32_EOC
  omega

/-- The FAT entry of a cluster in a chain is not free. -/
theorem Chain.fat_ne_zero (chain : Chain info m first cs) (hc : c ∈ cs) : fat info m c ≠ 0 := by
  obtain ⟨i, hi, rfl⟩ := List.getElem_of_mem hc
  obtain ⟨hnext, hend⟩ := chain.linked.next_getElem hi
  by_cases hlast : i + 1 = cs.length
  · have hstop := hend hlast
    unfold FAT32_EOC at hstop
    omega
  · have hlt : i + 1 < cs.length := by omega
    rw [(hnext hlt).1]
    have := (chain.valid _ (List.getElem_mem hlt)).1
    omega

/-- A chain depends on the FAT entries of its clusters only. -/
theorem Chain.congr (chain : Chain info m first cs) (h : ∀ c ∈ cs, fat info m' c = fat info m c) :
    Chain info m' first cs :=
  ⟨chain.linked.congr h, chain.nodup, chain.valid⟩

/-- A free cluster, marked as the end of a chain and linked to from `last`. -/
def linkNew (info : FsInfo) (m : Store) (last new : Nat) : Store :=
  setFat info (setFat info m new FAT32_EOC) last new

theorem Valid.and_mask (volume : Volume info) (hc : Valid info c) : c &&& 0x0FFFFFFF = c := by
  have := volume.entries_le
  rw [Filesystem.and_mask]
  exact Nat.mod_eq_of_lt (by have := hc.2; omega)

theorem freeSet_linkNew (volume : Volume info) {last new : Nat} (hnew : new ∈ freeSet info m)
    (hlast : fat info m last ≠ 0) :
    freeSet info (linkNew info m last new) = (freeSet info m).erase new := by
  have hvalid := (mem_freeSet.mp hnew).1
  have hused : new &&& 0x0FFFFFFF ≠ 0 := by
    rw [hvalid.and_mask volume]
    have := hvalid.1
    omega
  rw [linkNew, freeSet_setFat hused, freeSet_setFat (by decide)]
  refine Finset.erase_eq_of_notMem fun hmem => ?_
  exact hlast (mem_freeSet.mp (Finset.mem_of_mem_erase hmem)).2

theorem fat_linkNew_other {last new x : Nat} (hx : x ≠ last) (hx' : x ≠ new) :
    fat info (linkNew info m last new) x = fat info m x := by
  rw [linkNew, fat_setFat_other hx, fat_setFat_other hx']

theorem Chain.extend (volume : Volume info) (chain : Chain info m first cs) (hne : cs ≠ [])
    {new : Nat} (hnew : new ∈ freeSet info m) :
    Chain info (linkNew info m (cs.getLast hne) new) first (cs ++ [new]) := by
  obtain ⟨hvalid, hfree⟩ := mem_freeSet.mp hnew
  have hout : new ∉ cs := fun hmem => chain.fat_ne_zero hmem hfree
  have hlast : cs.getLast hne ≠ new := fun heq => hout (heq ▸ List.getLast_mem hne)
  refine ⟨?_, ?_, ?_⟩
  · refine chain.linked.concat hne chain.nodup (fun y hy hy' => ?_) ?_ ?_ ?_
    · exact fat_linkNew_other hy' fun heq => hout (heq ▸ hy)
    · rw [linkNew, fat_setFat_same, hvalid.and_mask volume]
    · exact volume.not_eoc hvalid.2
    · rw [linkNew, fat_setFat_other hlast.symm, fat_setFat_same]
      decide
  · rw [List.nodup_append]
    exact ⟨chain.nodup, List.nodup_singleton new, fun a ha b hb heq => by
      rw [List.mem_singleton] at hb
      exact hout (hb ▸ heq ▸ ha)⟩
  · intro c hc
    rcases List.mem_append.mp hc with hmem | hmem
    · exact chain.valid c hmem
    · rw [List.mem_singleton] at hmem
      exact hmem ▸ hvalid

/-- A chain of one new cluster. -/
theorem Chain.single (volume : Volume info) {new : Nat} (hnew : new ∈ freeSet info m) :
    Chain info (setFat info m new FAT32_EOC) new [new] := by
  obtain ⟨hvalid, -⟩ := mem_freeSet.mp hnew
  refine ⟨⟨rfl, volume.not_eoc hvalid.2, ?_⟩, List.nodup_singleton new, fun c hc => ?_⟩
  · rw [fat_setFat_same]
    exact Nat.le_refl FAT32_EOC
  · rw [List.mem_singleton] at hc
    exact hc ▸ hvalid

/-! ### File positions -/

/-- Where position `k` of a chain is on the disk. -/
def location (info : FsInfo) (cs : List Nat) (k : Nat) : Nat :=
  dataAddr info (cs.getD (k / info.bytesPerCluster) 0) + k % info.bytesPerCluster

/-- The bytes at the first `n` positions of a chain. -/
def chainBytes (info : FsInfo) (m : Store) (cs : List Nat) (n : Nat) : List UInt8 :=
  (List.range n).map fun k => m (location info cs k)

theorem Volume.bytesPerCluster_pos (volume : Volume info) : 0 < info.bytesPerCluster := by
  rw [volume.bytesPerCluster]
  have := volume.sectorsPerCluster
  omega

/-- A position within the chain lies in one of its clusters. -/
theorem index_lt {k : Nat} (h : k < cs.length * info.bytesPerCluster) :
    k / info.bytesPerCluster < cs.length := by
  rw [Nat.mul_comm] at h
  exact Nat.div_lt_of_lt_mul h

theorem location_eq {k : Nat} (h : k / info.bytesPerCluster < cs.length) :
    location info cs k = dataAddr info cs[k / info.bytesPerCluster] + k % info.bytesPerCluster := by
  rw [location, List.getD_eq_getElem _ _ h]

/-- Different positions are at different addresses. -/
theorem location_inj (volume : Volume info) (chain : Chain info m first cs) {j k : Nat}
    (hj : j < cs.length * info.bytesPerCluster) (hk : k < cs.length * info.bytesPerCluster)
    (h : location info cs j = location info cs k) : j = k := by
  have hpos := volume.bytesPerCluster_pos
  have hjin := index_lt hj
  have hkin := index_lt hk
  rw [location_eq hjin, location_eq hkin] at h
  have hjmod := Nat.mod_lt j hpos
  have hkmod := Nat.mod_lt k hpos
  have hindex : j / info.bytesPerCluster = k / info.bytesPerCluster := by
    by_contra hne
    have hclusters : cs[j / info.bytesPerCluster] ≠ cs[k / info.bytesPerCluster] := fun heq =>
      hne ((List.Nodup.getElem_inj_iff chain.nodup).mp heq)
    have := dataAddr_disjoint volume (chain.valid _ (List.getElem_mem _))
      (chain.valid _ (List.getElem_mem _)) hclusters
    omega
  have hmod : j % info.bytesPerCluster = k % info.bytesPerCluster := by
    simp only [hindex] at h
    omega
  rw [← Nat.div_add_mod j info.bytesPerCluster, ← Nat.div_add_mod k info.bytesPerCluster, hindex,
    hmod]

/-- Within a cluster, positions are consecutive addresses. -/
theorem location_add {p i : Nat} (h : p % info.bytesPerCluster + i < info.bytesPerCluster) :
    location info cs (p + i) = location info cs p + i := by
  have hpos : 0 < info.bytesPerCluster := by omega
  have hdiv : (p + i) / info.bytesPerCluster = p / info.bytesPerCluster := by
    rw [Nat.add_div hpos, Nat.mod_eq_of_lt (a := i) (by omega), if_neg (by omega),
      Nat.div_eq_of_lt (a := i) (by omega), Nat.add_zero]
  have hmod : (p + i) % info.bytesPerCluster = p % info.bytesPerCluster + i := by
    rw [Nat.add_mod, Nat.mod_eq_of_lt (a := i) (by omega), Nat.mod_eq_of_lt h]
  rw [location, location, hdiv, hmod, Nat.add_assoc]

/-- Positions of the old part of a longer chain stay where they are. -/
theorem location_append {k : Nat} (h : k < cs.length * info.bytesPerCluster) :
    location info (cs ++ ns) k = location info cs k := by
  rw [location, location, List.getD_append _ _ _ _ (index_lt h)]

/-- The FAT is apart from the positions of a chain. -/
theorem fatAddr_lt_location (hc : c < entries info) (k : Nat) :
    fatAddr info c + 4 ≤ location info cs k :=
  (fatAddr_lt_dataAddr hc _).trans (Nat.le_add_right _ _)

/-! ### Writing data -/

/-- Data do not touch the FAT. -/
theorem fat_writeBytes {p : Nat} {bytes : List UInt8} (hc : c < entries info) :
    fat info (writeBytes m (location info cs p) bytes) c = fat info m c := by
  have hlt := @fatAddr_lt_location info _ cs hc p
  rw [fat, fat, (writeBytes_frame m _ bytes).readLE_eq (Or.inr hlt)]

theorem freeSet_writeBytes {p : Nat} {bytes : List UInt8} :
    freeSet info (writeBytes m (location info cs p) bytes) = freeSet info m := by
  ext x
  rw [mem_freeSet, mem_freeSet]
  refine and_congr_right fun hx => ?_
  rw [fat_writeBytes hx.2]

end Curnel.Filesystem
