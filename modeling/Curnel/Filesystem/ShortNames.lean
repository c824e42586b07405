/-
8.3 names.

fs_open and fs_readdir each have a loop that turns the 11 bytes of a directory name into a
string: padding goes, and a dot comes in front of an extension. `ShortName` is what these
bytes are meant to say. Different short names are different strings, so the `strcmp` of
`fs_open` takes no file for another one.
-/

import Curnel.Filesystem.Directory

namespace Curnel.Filesystem

open Lib Bytes Word

variable {σ : Type}

/-! ### The code -/

/-- `for (k = ...; k < ...; k++) if (entry[k] != ' ') short_name[name_pos++] = entry[k]`, for
`n` characters from `k` on. -/
def copyPart (entry : Store) : Nat → Nat → Nat → Store → Nat × Store
  | 0, _, namePos, buffer => (namePos, buffer)
  | n + 1, k, namePos, buffer =>
      if entry k ≠ 0x20 then
        copyPart entry n (k + 1) (namePos + 1) (Function.update buffer namePos (entry k))
      else copyPart entry n (k + 1) namePos buffer

/-- What `fs_open` makes of its array `short_name`. -/
def fsOpenShortName (entry buffer : Store) : Store :=
  let (namePos, buffer) := copyPart entry 8 0 0 buffer
  let (namePos, buffer) :=
    if entry 8 ≠ 0x20 then
      copyPart entry 3 8 (namePos + 1) (Function.update buffer namePos 0x2E)
    else (namePos, buffer)
  Function.update buffer namePos 0

/-- What `fs_readdir` makes of its array `short_name`. -/
def fsReaddirShortName (entry buffer : Store) : Store :=
  let (namePos, buffer) := copyPart entry 8 0 0 buffer
  let (namePos, buffer) :=
    if entry 8 ≠ 0x20 then
      copyPart entry 3 8 (namePos + 1) (Function.update buffer namePos 0x2E)
    else (namePos, buffer)
  Function.update buffer namePos 0

/-- The loop of `strcmp`, from the characters at `i` on. -/
def strcmp (s1 s2 : Store) : Nat → Nat → Option Int
  | 0, _ => none
  | fuel + 1, i =>
      if s1 i ≠ 0 ∧ s1 i = s2 i then strcmp s1 s2 fuel (i + 1)
      else some ((s1 i).toNat - (s2 i).toNat)

/-! ### Names -/

/-- A base and an extension. -/
@[ext] structure ShortName where
  base : List UInt8
  extension : List UInt8
  base_pos : 0 < base.length
  base_le : base.length ≤ 8
  extension_le : extension.length ≤ 3
  plain : ∀ c ∈ base ++ extension, c ≠ 0x20 ∧ c ≠ 0x2E ∧ c ≠ 0

namespace ShortName

/-- The 11 bytes of a directory entry. -/
def padded (n : ShortName) : List UInt8 :=
  n.base ++ List.replicate (8 - n.base.length) 0x20 ++
    (n.extension ++ List.replicate (3 - n.extension.length) 0x20)

/-- The name as users write it. -/
def text (n : ShortName) : List UInt8 :=
  n.base ++ if n.extension = [] then [] else 0x2E :: n.extension

theorem base_plain (n : ShortName) {c : UInt8} (h : c ∈ n.base) : c ≠ 0x20 ∧ c ≠ 0x2E ∧ c ≠ 0 :=
  n.plain c (List.mem_append_left _ h)

theorem extension_plain (n : ShortName) {c : UInt8} (h : c ∈ n.extension) :
    c ≠ 0x20 ∧ c ≠ 0x2E ∧ c ≠ 0 :=
  n.plain c (List.mem_append_right _ h)

theorem dot_notMem_base (n : ShortName) : 0x2E ∉ n.base := fun h => (n.base_plain h).2.1 rfl

theorem dot_notMem_extension (n : ShortName) : 0x2E ∉ n.extension :=
  fun h => (n.extension_plain h).2.1 rfl

/-- The dot tells where the extension begins: it is the first, if there is one. -/
theorem text_injective {n n' : ShortName} (h : n.text = n'.text) : n = n' := by
  have hdot := n.dot_notMem_base
  have hdot' := n'.dot_notMem_base
  unfold text at h
  by_cases hnone : n.extension = []
  · rw [if_pos hnone, List.append_nil] at h
    by_cases hnone' : n'.extension = []
    · rw [if_pos hnone', List.append_nil] at h
      exact ShortName.ext h (hnone.trans hnone'.symm)
    · rw [if_neg hnone'] at h
      exact absurd (h ▸ List.mem_append_right _ List.mem_cons_self) hdot
  · rw [if_neg hnone] at h
    by_cases hnone' : n'.extension = []
    · rw [if_pos hnone', List.append_nil] at h
      exact absurd (h ▸ List.mem_append_right _ List.mem_cons_self) hdot'
    · rw [if_neg hnone', List.append_cons_inj_of_notMem hdot n.dot_notMem_extension] at h
      exact ShortName.ext h.1 h.2.2

theorem text_ne_nil (n : ShortName) : n.text ≠ [] := by
  have hpos := n.base_pos
  intro hnil
  rw [text, List.append_eq_nil_iff] at hnil
  rw [hnil.1] at hpos
  exact absurd hpos (by decide)

theorem noNul_text (n : ShortName) : 0 ∉ n.text := by
  unfold text
  intro hin
  rcases List.mem_append.mp hin with hbase | hextension
  · exact (n.base_plain hbase).2.2 rfl
  · split at hextension
    · cases hextension
    · rcases List.mem_cons.mp hextension with hdot | hin
      · cases hdot
      · exact (n.extension_plain hin).2.2 rfl

end ShortName

/-- The entry has this name. -/
def Named (entry : Store) (n : ShortName) : Prop := readBytes entry 0 11 = n.padded

def WellFormed (entry : Store) : Prop := ∃ n, Named entry n

/-! ### The decoding -/

/-- The characters of `n` from `k` on that are no padding. -/
def unpadded (entry : Store) (k n : Nat) : List UInt8 := (readBytes entry k n).filter (· ≠ 0x20)

def decoded (entry : Store) : List UInt8 :=
  unpadded entry 0 8 ++ if entry 8 ≠ 0x20 then 0x2E :: unpadded entry 8 3 else []

theorem length_decoded (entry : Store) : (decoded entry).length ≤ 12 := by
  have hlength : ∀ k n, (unpadded entry k n).length ≤ n := by
    intro k n
    have hfilter := List.length_filter_le (· ≠ 0x20) (readBytes entry k n)
    simpa [unpadded, readBytes] using hfilter
  have hbase := hlength 0 8
  have hextension := hlength 8 3
  unfold decoded
  rw [List.length_append]
  split
  · rw [List.length_cons]
    omega
  · rw [List.length_nil]
    omega

theorem copyPart_eq (entry : Store) (n k namePos : Nat) (buffer : Store) :
    copyPart entry n k namePos buffer
      = (namePos + (unpadded entry k n).length,
          writeBytes buffer namePos (unpadded entry k n)) := by
  induction n generalizing k namePos buffer with
  | zero => exact Prod.ext rfl (writeBytes_nil buffer namePos).symm
  | succ n ih =>
      have hsplit : unpadded entry k (n + 1)
          = if entry k ≠ 0x20 then entry k :: unpadded entry (k + 1) n
            else unpadded entry (k + 1) n := by
        rw [unpadded, readBytes_succ, List.filter_cons]
        simp [unpadded]
      rw [copyPart, hsplit]
      split
      · rw [ih, writeBytes_cons, List.length_cons]
        exact Prod.ext (by simp only; omega) rfl
      · rw [ih]

/-- All that is written, whatever the array holds before. -/
theorem fsOpenShortName_eq (entry buffer : Store) :
    fsOpenShortName entry buffer = writeBytes buffer 0 (decoded entry ++ [0]) := by
  unfold fsOpenShortName decoded
  rw [copyPart_eq]
  dsimp only
  split
  · rw [copyPart_eq]
    dsimp only
    have hplace : 0 + (unpadded entry 0 8).length + 1 + (unpadded entry 8 3).length
        = 0 + (unpadded entry 0 8 ++ 0x2E :: unpadded entry 8 3).length := by
      rw [List.length_append, List.length_cons]
      omega
    rw [writeBytes_cons, writeBytes_append, hplace, writeBytes_concat]
  · rw [writeBytes_concat, List.append_nil]

theorem fsReaddirShortName_eq (entry buffer : Store) :
    fsReaddirShortName entry buffer = writeBytes buffer 0 (decoded entry ++ [0]) :=
  fsOpenShortName_eq entry buffer

theorem filter_padded {part : List UInt8} (hplain : ∀ c ∈ part, c ≠ 0x20) (n : Nat) :
    (part ++ List.replicate n 0x20).filter (· ≠ 0x20) = part := by
  have hpart : part.filter (· ≠ 0x20) = part := by
    rw [List.filter_eq_self]
    intro c hc
    exact decide_eq_true (hplain c hc)
  rw [List.filter_append, hpart, List.filter_replicate]
  simp

/-- A well-formed name is decoded to what it says. -/
theorem Named.decoded_eq {entry : Store} {n : ShortName} (h : Named entry n) :
    decoded entry = n.text := by
  have hsplit : readBytes entry 0 8 ++ readBytes entry 8 3 = n.padded := by
    rw [← h, ← readBytes_add]
  have hlength : (readBytes entry 0 8).length
      = (n.base ++ List.replicate (8 - n.base.length) 0x20).length := by
    have hle := n.base_le
    rw [List.length_append, List.length_replicate]
    simp only [readBytes, List.length_map, List.length_range]
    omega
  obtain ⟨hbase, hextension⟩ := List.append_inj hsplit hlength
  have hfirst : unpadded entry 0 8 = n.base := by
    rw [unpadded, hbase, filter_padded fun c hc => (n.base_plain hc).1]
  have hsecond : unpadded entry 8 3 = n.extension := by
    rw [unpadded, hextension, filter_padded fun c hc => (n.extension_plain hc).1]
  rw [readBytes_succ] at hextension
  rw [decoded, ShortName.text, hfirst, hsecond]
  cases hnone : n.extension with
  | nil =>
      have hblank : entry 8 = 0x20 := by
        rw [hnone, List.nil_append] at hextension
        exact List.head_eq_of_cons_eq hextension
      rw [if_neg (not_not.mpr hblank), if_pos rfl]
  | cons c rest =>
      have hchar : entry 8 = c := by
        rw [hnone, List.cons_append] at hextension
        exact List.head_eq_of_cons_eq hextension
      have hplain := (n.extension_plain (hnone ▸ List.mem_cons_self : c ∈ n.extension)).1
      rw [hchar, if_pos hplain, if_neg (List.cons_ne_nil c rest)]

/-! ### Comparing -/

theorem toNat_sub_eq_zero_iff (c d : UInt8) : (c.toNat : Int) - d.toNat = 0 ↔ c = d := by
  rw [sub_eq_zero, Nat.cast_inj, UInt8.toNat_inj]

/-- `strcmp` of two strings. -/
theorem strcmp_spec {s1 s2 : Store} {i fuel : Nat} {s t : List UInt8} (hs : StringAt s1 i s)
    (ht : StringAt s2 i t) (hfuel : s.length < fuel) :
    ∃ r, strcmp s1 s2 fuel i = some r ∧ (r = 0 ↔ s = t) := by
  induction s generalizing i fuel t with
  | nil =>
      obtain ⟨fuel, rfl⟩ := Nat.exists_eq_add_of_lt hfuel
      have hend : s1 i = 0 := hs.nul
      have hstop : ¬ (s1 i ≠ 0 ∧ s1 i = s2 i) := fun h => h.1 hend
      refine ⟨_, if_neg hstop, ?_⟩
      rw [toNat_sub_eq_zero_iff, hend]
      cases t with
      | nil => exact iff_of_true ht.nul.symm rfl
      | cons d t =>
          obtain ⟨hd, hne, _⟩ := ht.cons
          exact iff_of_false (fun h => hne (hd ▸ h.symm)) (List.cons_ne_nil d t).symm
  | cons c s ih =>
      obtain ⟨fuel, rfl⟩ := Nat.exists_eq_add_of_lt hfuel
      obtain ⟨hc, hne, hs⟩ := hs.cons
      by_cases hsame : s1 i = s2 i
      · cases t with
        | nil => exact absurd (hc.symm.trans (hsame.trans ht.nul)) hne
        | cons d t =>
            obtain ⟨hd, _, ht⟩ := ht.cons
            have hless : s.length < (c :: s).length + fuel := by
              rw [List.length_cons]
              omega
            obtain ⟨r, hr, hzero⟩ := ih hs ht hless
            refine ⟨r, (if_pos ⟨hc ▸ hne, hsame⟩).trans hr, ?_⟩
            have hcd : c = d := hc.symm.trans (hsame.trans hd)
            rw [hzero, hcd, List.cons.injEq]
            simp
      · refine ⟨_, if_neg fun h => hsame h.2, ?_⟩
        rw [toNat_sub_eq_zero_iff]
        refine iff_of_false hsame ?_
        rintro rfl
        exact hsame (hc.trans ht.cons.1.symm)

/-! ### The names that `fs_open` and `fs_readdir` see -/

theorem shortName_eq (sector : Store) (j : Nat) :
    shortName sector j = (decoded fun k => sector (j + k)).takeWhile (· ≠ 0) := by
  have hbase : readBytes (fun k => sector (j + k)) 0 8 = readBytes sector j 8 :=
    readBytes_shift fun k _ => by rw [Nat.zero_add]
  have hextension : readBytes (fun k => sector (j + k)) 8 3 = readBytes sector (j + 8) 3 :=
    readBytes_shift fun k _ => by rw [Nat.add_assoc]
  unfold shortName decoded unpadded
  rw [hbase, hextension]

/-- `shortName` is the string that is left in the array. -/
theorem stringAt_shortName (sector buffer : Store) (j : Nat) :
    StringAt (fsOpenShortName (fun k => sector (j + k)) buffer) 0 (shortName sector j) := by
  rw [fsOpenShortName_eq, shortName_eq]
  exact stringAt_takeWhile buffer 0 _

/-- The name that `fs_readdir` gives is the string in its own array. -/
theorem stringAt_dirent_name (sector buffer : Store) (j : Nat) :
    StringAt (fsReaddirShortName (fun k => sector (j + k)) buffer) 0
      (entryDirent sector j).name := by
  rw [fsReaddirShortName_eq, ← fsOpenShortName_eq]
  exact stringAt_shortName sector buffer j

/-- The comparison of `fs_open` is that of `strcmp`. -/
theorem strcmp_shortName (sector buffer : Store) (j : Nat) {s2 : Store} {filename : List UInt8}
    (h : StringAt s2 0 filename) :
    ∃ r, strcmp (fsOpenShortName (fun k => sector (j + k)) buffer) s2 13 0 = some r ∧
      (r = 0 ↔ shortName sector j = filename) := by
  have hlength : (shortName sector j).length < 13 := by
    rw [shortName_eq]
    have htake := (List.takeWhile_sublist (l := decoded fun k => sector (j + k)) (· ≠ 0)).length_le
    have hle := length_decoded fun k => sector (j + k)
    omega
  exact strcmp_spec (stringAt_shortName sector buffer j) h hlength

theorem Named.stringAt {entry : Store} {n : ShortName} (h : Named entry n) (buffer : Store) :
    StringAt (fsOpenShortName entry buffer) 0 n.text := by
  rw [fsOpenShortName_eq, h.decoded_eq]
  exact stringAt_writeBytes buffer 0 n.noNul_text []

theorem Named.shortName_eq {sector : Store} {j : Nat} {n : ShortName}
    (h : Named (fun k => sector (j + k)) n) : shortName sector j = n.text :=
  (stringAt_shortName sector sector j).unique (h.stringAt sector)

/-- Two entries have the same text exactly when they have the same bytes. -/
theorem Named.text_eq_iff {entry other : Store} {n n' : ShortName} (h : Named entry n)
    (h' : Named other n') : n'.text = n.text ↔ readBytes other 0 11 = readBytes entry 0 11 := by
  constructor
  · intro htext
    rw [h, h', ShortName.text_injective htext]
  · intro hbytes
    have hother : Named other n := hbytes.trans h
    rw [← h'.decoded_eq, hother.decoded_eq]

/-- Both loops write the same bytes, 13 at most and a NUL behind them. No two well-formed names
are the same string, and `strcmp` takes the name of a file for no other one. -/
theorem short_names_exact :
    (∀ entry : Store, ∃ bytes : List UInt8, bytes.length ≤ 13 ∧ bytes.getLast? = some 0 ∧
      ∀ buffer, fsOpenShortName entry buffer = writeBytes buffer 0 bytes ∧
        fsReaddirShortName entry buffer = writeBytes buffer 0 bytes) ∧
    ∀ entry other : Store, WellFormed entry → WellFormed other →
      (∀ buffer buffer' s, StringAt (fsOpenShortName entry buffer) 0 s →
        StringAt (fsOpenShortName other buffer') 0 s →
        readBytes other 0 11 = readBytes entry 0 11) ∧
      ∀ buffer buffer' filename s, StringAt (fsOpenShortName entry buffer) 0 s →
        StringAt filename 0 s →
        ∃ r, strcmp (fsOpenShortName other buffer') filename 13 0 = some r ∧
          (r = 0 ↔ readBytes other 0 11 = readBytes entry 0 11) := by
  constructor
  · intro entry
    refine ⟨decoded entry ++ [0], ?_, by simp, fun buffer => ?_⟩
    · have hlength := length_decoded entry
      rw [List.length_append, List.length_singleton]
      omega
    · exact ⟨fsOpenShortName_eq entry buffer, fsReaddirShortName_eq entry buffer⟩
  · rintro entry other ⟨n, hn⟩ ⟨n', hn'⟩
    constructor
    · intro buffer buffer' s hs hs'
      have htext := (hs'.unique (hn'.stringAt buffer')).symm.trans (hs.unique (hn.stringAt buffer))
      exact (hn.text_eq_iff hn').mp htext
    · intro buffer buffer' filename s hs hfilename
      have hname : s = n.text := hs.unique (hn.stringAt buffer)
      have hlength := length_decoded other
      rw [hn'.decoded_eq] at hlength
      rw [← hn.text_eq_iff hn', ← hname]
      exact strcmp_spec (hn'.stringAt buffer') hfilename (Nat.lt_succ_of_le hlength)

/-- A.B and AB. -/
theorem short_names_exact_dot :
    ∃ r, strcmp
        (fsOpenShortName (writeBytes (fun _ => 0) 0 [65, 66, 32, 32, 32, 32, 32, 32, 32, 32, 32])
          fun _ => 0)
        (writeBytes (fun _ => 0) 0 [65, 46, 66, 0]) 13 0 = some r ∧ r ≠ 0 := by
  have hfirst : WellFormed
      (writeBytes (fun _ => 0) 0 [65, 32, 32, 32, 32, 32, 32, 32, 66, 32, 32]) :=
    ⟨⟨[65], [66], by decide, by decide, by decide, by simp⟩, by unfold Named; decide +kernel⟩
  have hsecond : WellFormed
      (writeBytes (fun _ => 0) 0 [65, 66, 32, 32, 32, 32, 32, 32, 32, 32, 32]) :=
    ⟨⟨[65, 66], [], by decide, by decide, by decide, by simp⟩, by unfold Named; decide +kernel⟩
  have hstring : StringAt (writeBytes (fun _ => 0) 0 [65, 46, 66, 0]) 0 [65, 46, 66] :=
    stringAt_writeBytes _ 0 (show (0 : UInt8) ∉ [65, 46, 66] by decide) []
  have hname : StringAt (fsOpenShortName
      (writeBytes (fun _ => 0) 0 [65, 32, 32, 32, 32, 32, 32, 32, 66, 32, 32]) fun _ => 0) 0
      [65, 46, 66] := ⟨by decide, by decide, by decide⟩
  obtain ⟨r, hr, hzero⟩ :=
    (short_names_exact.2 _ _ hfirst hsecond).2 (fun _ => 0) (fun _ => 0) _ _ hname hstring
  refine ⟨r, hr, fun heq => ?_⟩
  exact absurd (hzero.mp heq) (by decide)

/-! ### What `fs_open` finds -/

theorem findInSector_named {filename : List UInt8} {sector : Store} {n j : Nat} {dirent : Dirent}
    (h : findInSector filename sector n j = some dirent) :
    ∃ k, dirent = entryDirent sector k ∧ shortName sector k = filename := by
  induction n generalizing j with
  | zero => cases h
  | succ n ih =>
      rw [findInSector] at h
      split at h
      · cases h
      split at h
      · exact ih h
      split at h
      · exact ih h
      split at h
      next hname => exact ⟨j, (Option.some.inj h).symm, hname⟩
      next => exact ih h

/-- What the scan of the root directory finds is in one of the sectors that it reads; without
a result it does not report success. -/
theorem scanRoot_named {ata : Ata σ} {info : FsInfo} {filename : List UInt8} {n i : Nat} {d : σ} :
    (∃ dirent d' lba d₁ d₂ sector k, scanRoot ata info filename n i d = (.ok dirent, d') ∧
        ata.readSector lba d₁ = (some sector, d₂) ∧ dirent = entryDirent sector k ∧
        shortName sector k = filename) ∨
      ∃ e d', scanRoot ata info filename n i d = (.error e, d') ∧ e ≠ FS_SUCCESS := by
  induction n generalizing i d with
  | zero => exact Or.inr ⟨_, _, rfl, by decide⟩
  | succ n ih =>
      rw [scanRoot]
      split
      next => exact Or.inr ⟨_, _, rfl, by decide⟩
      next sector d₁ hread =>
        split
        next dirent hfound =>
          obtain ⟨k, hdirent, hname⟩ := findInSector_named hfound
          exact Or.inl ⟨dirent, d₁, _, d, d₁, sector, k, rfl, hread, hdirent, hname⟩
        next => exact ih

/-- A file that is opened by a well-formed name is one with this name: no other well-formed
name matches it. -/
theorem fsOpen_named {ata : Ata σ} {info : FsInfo} {path : List UInt8} {file f : File} {d d' : σ}
    {n : ShortName} (hpath : path.dropWhile (· = 0x2F) = n.text)
    (h : fsOpen ata info path file d = (FS_SUCCESS, f, d')) :
    ∃ lba d₁ d₂ sector k, ata.readSector lba d₁ = (some sector, d₂) ∧
      f = opened info (entryDirent sector k) ∧
      ∀ n', Named (fun i => sector (k + i)) n' → n' = n := by
  rw [fsOpen] at h
  split at h
  · cases h
  split at h
  next hroot =>
    rw [hroot] at hpath
    exact absurd hpath.symm n.text_ne_nil
  next =>
    rw [hpath] at h
    rcases @scanRoot_named σ ata info n.text info.sectorsPerCluster 0 d with
      ⟨dirent, d₀, lba, d₁, d₂, sector, k, hscan, hread, hdirent, hname⟩ | ⟨e, d₀, hscan, herror⟩
    · rw [hscan] at h
      cases h
      refine ⟨lba, d₁, d₂, sector, k, hread, by rw [hdirent], fun n' hnamed => ?_⟩
      exact ShortName.text_injective (hnamed.shortName_eq.symm.trans hname)
    · rw [hscan] at h
      exact absurd (Prod.ext_iff.mp h).1 herror

end Curnel.Filesystem
