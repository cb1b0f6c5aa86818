/-
# Xv6.Fs.Mounted — the image of `mkfs` as the kernel finds it.

What is read back are the files, whatever the chunks were in which `mkfs` read them
(`mkfs_readBack`).  As a file system the image is well-formed except for one thing: `main` rounds the size
of the root directory up to the *next* multiple of `BSIZE`, so a directory that ends on a block boundary is
given a last block that it does not have.  A block holds 64 entries and two are `.` and `..`, so that
happens with 62, 126 and 190 files and with no other number (`mkfs_wellFormed`).
-/
import Xv6.Fs.Built
import Xv6.Fs.Parting

namespace Xv6.Fs.Mkfs

open Function List
open Kernel (Cid CStr CharArr BSIZE ROOTINO strncmp strncpy strncmp_eq_zero_iff)
open Lib (Owns)

/-! ## A well-formed file system -/

/-- Place `p` is one that the file system on `d` uses, and has address `a`: a block below the size of an
allocated inode, or an indirect block. -/
def Listed (d : Disk) (p : Place) (a : BlockNo) : Prop :=
  ∃ x, inodesOf mkfsSb d p.1 = some x ∧ x.addrAt d p.2 = a ∧
    ((∃ bn, bn * BSIZE < x.size.toNat ∧ p.2 = .ofBlock bn) ∨ p.2 = .addr (Fin.last 12) ∧ a ≠ 0)

/-- No block of an inode is missing, no block is used twice, and the free map marks the
metadata and the blocks in use. -/
structure WellFormed (d : Disk) : Prop where
  mapped : ∀ i x, inodesOf mkfsSb d i = some x → x.MappedTo d x.size.toNat
  owns : Owns mkfsSb.IsData (Listed d)
  marked : ∀ b, b < FSSIZE → (bit mkfsSb d b = true ↔ b < mkfsSb.datastart ∨ ∃ p a, Listed d p a ∧ a.toNat = b)

namespace Written

variable {files : List Source} {d : Disk} {i : Nat} {x : DiskInode} {p : Place} {a : BlockNo} (h : Written files d)
include h

theorem listed_of_ne (hp : addrOf (inodesOf mkfsSb d) d p ≠ 0) : Listed d p (addrOf (inodesOf mkfsSb d) d p) := by
  obtain ⟨i, ix⟩ := p
  cases hx : inodesOf mkfsSb d i with
  | none => exact absurd (addrOf_none hx ix) hp
  | some x =>
    refine ⟨x, hx, (addrOf_some hx ix).symm, ?_⟩
    have hfirst := (h.image.shape i ix).mp hp
    have hshort := h.image.short i
    have hmax : MAXFILE = 268 := rfl
    have hsize : (contents files i).length ≤ x.size.toNat := by
      by_cases hi : i = ROOTINO
      · subst hi
        rw [h.rootsize x hx, length_contents_root]
        omega
      · rw [h.size i x hx hi]
    obtain ⟨bn, hbn⟩ : ∃ bn, first ix = bn * 1024 := by
      cases ix with
      | addr k => exact ⟨k, rfl⟩
      | entry j => exact ⟨12 + j, rfl⟩
    rw [hbn] at hfirst
    rcases first_eq_ofBlock (by omega) hbn with hix | hix
    · exact .inl ⟨bn, by unfold BSIZE; omega, hix⟩
    · exact .inr ⟨hix, hp⟩

theorem mappedTo (hmod : (files.length + 2) % 64 ≠ 0) (hx : inodesOf mkfsSb d i = some x) :
    x.MappedTo d x.size.toNat := by
  have hmapped := (h.image.holds hx).mapped
  by_cases hi : i = ROOTINO
  · subst hi
    intro bn hbn
    apply hmapped
    rw [h.rootsize x hx] at hbn
    rw [length_contents_root]
    omega
  · rw [h.size i x hx hi]
    exact hmapped

theorem wellFormed (hmod : (files.length + 2) % 64 ≠ 0) : WellFormed d := by
  have hlisted : ∀ p a, Listed d p a → addrOf (inodesOf mkfsSb d) d p = a ∧ a ≠ 0 := by
    rintro ⟨i, ix⟩ a ⟨x, hx, ha, hplace⟩
    refine ⟨(addrOf_some hx ix).trans ha, ?_⟩
    rcases hplace with ⟨bn, hbn, hix⟩ | ⟨-, hne⟩
    · have hne := (h.mappedTo hmod hx bn hbn).2
      rwa [← ha, show ix = .ofBlock bn from hix]
    · exact hne
  constructor
  · intro i x hx
    exact h.mappedTo hmod hx
  · constructor
    · intro p a hp
      obtain ⟨rfl, hne⟩ := hlisted p a hp
      exact h.image.pool.isData hne
    · intro p q a hp hq
      obtain ⟨hpa, hne⟩ := hlisted p a hp
      obtain ⟨hqa, -⟩ := hlisted q a hq
      exact h.image.pool.inj (by rwa [hpa]) (hpa.trans hqa.symm)
  intro b hb
  rw [h.bits b hb, decide_eq_true_iff]
  have hmeta : mkfsSb.datastart = nmeta := rfl
  rw [hmeta]
  constructor
  · intro hused
    by_cases hlow : b < nmeta
    · exact .inl hlow
    · obtain ⟨p, hp⟩ := h.image.pool.bump.onto (Nat.not_lt.mp hlow) hused
      have hpos : 0 < nmeta := by decide
      have hne : addrOf (inodesOf mkfsSb d) d p ≠ 0 := Pool.toNat_ne_zero.mp (by rw [hp]; omega)
      exact .inr ⟨p, _, h.listed_of_ne hne, hp⟩
  · rintro (hlow | ⟨p, a, hp, rfl⟩)
    · exact hlow.trans_le h.image.pool.bump.le
    · obtain ⟨rfl, hne⟩ := hlisted p a hp
      exact (h.image.pool.range hne).2

theorem not_wellFormed (hmod : (files.length + 2) % 64 = 0) : ¬ WellFormed d := by
  intro hwf
  obtain ⟨x, hx⟩ := Option.isSome_iff_exists.mp ((h.allocated ROOTINO).mpr ⟨by decide, by unfold ROOTINO; omega⟩)
  have hsize := h.rootsize x hx
  obtain ⟨hlt, hne⟩ := hwf.mapped ROOTINO x hx (16 * (files.length + 2) / 1024) (by omega)
  rw [← addrOf_some hx, h.image.shape, first_ofBlock hlt, length_contents_root] at hne
  omega

/-- **The kernel starts on a sound file system**, in the sense in which it keeps it sound. -/
theorem wf (hmod : (files.length + 2) % 64 ≠ 0) : Wf mkfsSb d := by
  have hnames : ∀ p a, names (inodesOf mkfsSb d) d p a → addrOf (inodesOf mkfsSb d) d p = a ∧ a ≠ 0 := by
    rintro ⟨i, ix⟩ a ⟨hne, x, hx, ha⟩
    exact ⟨(addrOf_some hx ix).trans ha, hne⟩
  refine ⟨⟨?_, ⟨?_, ?_⟩⟩, fun i x hx => h.mappedTo hmod hx⟩
  · intro b hb hlow
    rw [h.bits b hb, decide_eq_true_iff]
    exact hlow.trans_le h.image.pool.bump.le
  · intro p a hp
    obtain ⟨rfl, hne⟩ := hnames p a hp
    have hdata := h.image.pool.isData hne
    refine ⟨hdata, ?_⟩
    rw [h.bits _ hdata.2, decide_eq_true_iff]
    exact (h.image.pool.range hne).2
  · intro p q a hp hq
    obtain ⟨hpa, hne⟩ := hnames p a hp
    obtain ⟨hqa, -⟩ := hnames q a hq
    exact h.image.pool.inj (by rwa [hpa]) (hpa.trans hqa.symm)

end Written

theorem mkfs_isSome_iff {files : List Source} (hfits : Fits files) :
    (mkfs files).isSome ↔ ∀ f ∈ files, slash ∉ f.shortname.bytes := by
  constructor
  · intro hsome f hf hslash
    rw [mkfs_slash hf hslash] at hsome
    cases hsome
  · intro hslash
    obtain ⟨d, hd, -⟩ := mkfs_written hfits hslash
    rw [hd]
    rfl

theorem mkfs_written_of_eq {files : List Source} {d : Disk} (hfits : Fits files) (hd : mkfs files = some d) :
    Written files d := by
  have hslash := (mkfs_isSome_iff hfits).mp (by rw [hd]; rfl)
  obtain ⟨d', hd', hwritten⟩ := mkfs_written hfits hslash
  rw [hd] at hd'
  cases hd'
  exact hwritten

/-- **`mkfs` builds a well-formed file system exactly when the entries of the root directory do not fill
its last block.** -/
theorem mkfs_wellFormed {files : List Source} (hfits : Fits files) :
    ((mkfs files).isSome ↔ ∀ f ∈ files, slash ∉ f.shortname.bytes) ∧
      ∀ d, mkfs files = some d → (WellFormed d ↔ (files.length + 2) % 64 ≠ 0) := by
  refine ⟨mkfs_isSome_iff hfits, fun d hd => ?_⟩
  have hwritten := mkfs_written_of_eq hfits hd
  constructor
  · intro hwf hmod
    exact hwritten.not_wellFormed hmod hwf
  · exact hwritten.wellFormed

/-- **A kernel on the image of `mkfs`** counts references exactly and keeps the file system well-formed, in every
interleaving. -/
theorem mkfs_coherent {τ : Type} [DecidableEq τ] [Fintype τ] {cont : τ → Cid} {files : List Source} {d : Disk} {s : Icache τ}
    (hfits : Fits files) (hd : mkfs files = some d) (hmod : (files.length + 2) % 64 ≠ 0)
    (hr : Icache.Runs mkfsSb cont (Icache.start τ d) s) : Icache.Coherent mkfsSb s :=
  (Icache.linked_run ((mkfs_written_of_eq hfits hd).wf hmod) (Icache.start_empty τ d) hr).1

theorem fileName_nul_free (k : Fin 62) : ∀ b ∈ [102, UInt8.ofNat (48 + k)], b ≠ 0 := by
  intro b hb hzero
  subst hzero
  rcases mem_pair.mp hb with h | h
  · exact absurd h (by decide)
  · have hnat := congrArg UInt8.toNat h
    rw [UInt8.toNat_ofNat', Nat.mod_eq_of_lt (by omega)] at hnat
    exact absurd hnat (by show 0 ≠ _; omega)

def emptyFile (k : Fin 62) : Source where
  arg := ⟨[102, UInt8.ofNat (48 + k)], fileName_nul_free k⟩
  reads := []
  reads_ok := by simp

theorem emptyFiles_fit : Fits ((finRange 62).map emptyFile) := by
  constructor
  · rw [length_map, length_finRange]
    decide
  · intro f hf
    obtain ⟨k, -, rfl⟩ := mem_map.mp hf
    exact Nat.zero_le _
  · decide

def sample : List Source :=
  [⟨.ofBytes [82, 69, 65, 68, 77, 69] rfl, [[104, 105]], by decide⟩,
    ⟨.ofBytes [117, 115, 101, 114, 47, 95, 99, 97, 116] rfl, [[127, 69], [76, 70]], by decide⟩]

theorem sample_fits : Fits sample := ⟨by decide, by decide, by decide⟩

/-- A process appends three bytes to `README`, and makes a file that it gives up again. -/
def sampleRun : List (Event Unit) :=
  [.iget () 2, .ilock () 0, .writei () 0 (fun _ => some 33) 2 3, .iunlock () 0, .ialloc () .file, .probe () .file 1,
    .probe () .file 2, .probe () .file 3, .probe () .file 4, .igetNew () 4, .ilock () 1, .iunlock () 1, .iput () 1,
    .trunc () 1, .clearType () 1]

theorem mkfs_coherent_sample : ∃ d s, mkfs sample = some d ∧ Icache.Runs mkfsSb (fun _ => 0) (Icache.start Unit d) s ∧
    (s.entry 0).copy.size = 5 ∧ s.pc () = .freeing 1 .cleared ∧ Icache.Coherent mkfsSb s := by
  have hrun : ((mkfs sample).any fun d => (Lib.exec (Icache.step mkfsSb fun _ => 0)
      (fun s e => s.Linked mkfsSb e ∧ Icache.Fed mkfsSb (fun _ => 0) s e) (Icache.start Unit d) sampleRun).any
      fun s => decide ((s.entry 0).copy.size = 5 ∧ s.pc () = .freeing 1 .cleared)) = true := by decide +kernel
  obtain ⟨d, hd, hrun⟩ := (Option.any_eq_true _ _).mp hrun
  obtain ⟨s, hs, hend⟩ := Lib.Reach.of_any _ _ _ _ _ hrun
  obtain ⟨hsize, hpc⟩ := of_decide_eq_true hend
  exact ⟨d, s, hd, hs, hsize, hpc, mkfs_coherent sample_fits hd (by decide) hs⟩

theorem mkfs_wellFormed_sample : Fits sample ∧
    ((mkfs sample).isSome ↔ ∀ f ∈ sample, slash ∉ f.shortname.bytes) ∧
    ∀ d, mkfs sample = some d → (WellFormed d ↔ (sample.length + 2) % 64 ≠ 0) :=
  ⟨sample_fits, mkfs_wellFormed sample_fits⟩

/-- With 62 empty files the root directory has 1024 bytes of entries, one block, and size 2048. -/
theorem mkfs_not_wellFormed : ¬ ∀ files : List Source, Fits files → ∀ d, mkfs files = some d → WellFormed d := by
  intro hall
  have hslash : ∀ f ∈ (finRange 62).map emptyFile, slash ∉ f.shortname.bytes := by decide
  obtain ⟨d, hd, hwritten⟩ := mkfs_written emptyFiles_fit hslash
  exact hwritten.not_wellFormed (by simp) (hall _ emptyFiles_fit d hd)

section Names

variable {s : List UInt8} {old : CharArr DIRSIZ} {t : CStr}

theorem nameAt_strncpy {k : Nat} (hlt : k < 14) : nameAt (strncpy DIRSIZ t) k = t.get k := dif_pos hlt

/-- **Names of at most `DIRSIZ` bytes are compared as a whole**: a component of a path, as `skipelem` leaves
it in a buffer, with the name in an entry. -/
theorem namecmp_setName (hs : ∀ b ∈ s, b ≠ 0) (hslen : s.length ≤ 14) (htlen : t.strlen ≤ 14) :
    namecmp (setName s old) (strncpy DIRSIZ t) = 0 ↔ s = t.bytes := by
  have hne : ∀ k, k < s.length → nameAt (setName s old) k ≠ 0 := by
    intro k hk
    rw [nameAt_setName hk (by omega), getD_eq_getElem _ _ hk]
    exact hs _ (getElem_mem hk)
  unfold namecmp
  rw [strncmp_eq_zero_iff]
  constructor
  · intro h
    -- up to its end, `s` is the beginning of `t`
    have hagree : ∀ k, k < s.length → s.getD k 0 = t.get k := by
      intro k hk
      have heq := h k (by unfold DIRSIZ; omega) fun j hj => hne j (by omega)
      rwa [nameAt_setName hk (by omega), nameAt_strncpy (by omega)] at heq
    have hle : s.length ≤ t.strlen := by
      by_contra hgt
      have hend := hagree t.strlen (by omega)
      rw [t.get_strlen, getD_eq_getElem _ _ (by omega)] at hend
      exact hs _ (getElem_mem _) hend
    have hlen : s.length = t.strlen := by
      by_contra hlt
      have heq := h s.length (by unfold DIRSIZ; omega) fun j hj => hne j hj
      rw [nameAt_setName_end (by omega), nameAt_strncpy (by omega)] at heq
      exact CStr.get_ne_zero (by omega) heq.symm
    apply ext_getElem hlen
    intro k hk hk'
    have heq := hagree k hk
    unfold CStr.get at heq
    rwa [getD_eq_getElem _ _ hk, getD_eq_getElem _ _ hk'] at heq
  · rintro rfl k hk hprev
    by_cases hlt : k < t.bytes.length
    · rw [nameAt_setName hlt hk, nameAt_strncpy hk]
      rfl
    have hend : k = t.bytes.length := by
      by_contra hgt
      exact hprev t.bytes.length (by omega) (nameAt_setName_end (by unfold DIRSIZ at hk; omega))
    subst hend
    rw [nameAt_setName_end hk, nameAt_strncpy hk]
    exact t.get_strlen.symm

end Names

/-! ## Reading the files back -/

/-- What `fsinit` needs: the super block that describes the image, and an empty log. -/
structure Mounts (d : Disk) : Prop where
  magic : d 1 0 = BitVec.ofNat 32 FSMAGIC
  size : (d 1 1).toNat = mkfsSb.size
  ninodes : (d 1 3).toNat = mkfsSb.ninodes
  inodestart : (d 1 6).toNat = mkfsSb.inodestart
  bmapstart : (d 1 7).toNat = mkfsSb.bmapstart
  log : d 2 = fun _ => 0

/-- The names are different from each other and from the two that every directory has. -/
structure Named (files : List Source) : Prop where
  distinct : (files.map fun f => f.name.bytes).Nodup
  nonempty : ∀ f ∈ files, f.name.bytes ≠ []
  short : ∀ f ∈ files, f.name.strlen ≤ DIRSIZ
  not_dot : ∀ f ∈ files, f.name.bytes ≠ [46]
  not_dotdot : ∀ f ∈ files, f.name.bytes ≠ [46, 46]

/-- `readi` on `x` returns slices of `bytes`, ends at its end, and changes
nothing. -/
structure Reads (c : Cid) (x : DiskInode) (st : Store) (bytes : List (BitVec 8)) : Prop where
  slice : ∀ off n : BitVec 32, off.toNat ≤ bytes.length → off.toNat + n.toNat < 2 ^ 32 →
    readi mkfsSb c x anywhere off n st = .ok (((bytes.drop off.toNat).take n.toNat).length,
      (bytes.drop off.toNat).take n.toNat, x, st)
  behind : ∀ off n : BitVec 32, bytes.length < off.toNat → readi mkfsSb c x anywhere off n st = .ok (-1, [], x, st)

namespace Written

variable {files : List Source} {d : Disk} {k : Nat} {st : Store}

theorem mounts (h : Written files d) : Mounts d := by
  have hone : d 1 = sbBlock := by
    rw [h.front 1 (by decide)]
    show update (fun _ _ => 0) 1 sbBlock 1 = _
    rw [update_self]
  refine ⟨?_, ?_, ?_, ?_, ?_, ?_⟩
  · rw [hone]
    rfl
  · rw [hone]
    rfl
  · rw [hone]
    rfl
  · rw [hone]
    rfl
  · rw [hone]
    rfl
  · rw [h.front 2 (by decide)]
    exact start_disk_of_ne (by decide)

theorem dirent_matches_iff {inum : Nat} {nm name : CharArr DIRSIZ} :
    (dirent inum nm).Matches name = true ↔ UInt16.ofNat inum ≠ 0 ∧ namecmp name nm = 0 := Dirent.matches_iff

theorem find_entry (hcount : files.length ≤ 198) (hnamed : Named files) (hk : k < files.length)
    (old : CharArr DIRSIZ) :
    (entries files).find? (·.Matches (setName files[k].name.bytes old)) =
      some (dirent (k + 2) (strncpy DIRSIZ files[k].name)) := by
  have hmem : files[k] ∈ files := getElem_mem hk
  have hcmp : ∀ t : CStr, t.strlen ≤ 14 →
      (namecmp (setName files[k].name.bytes old) (strncpy DIRSIZ t) = 0 ↔ files[k].name.bytes = t.bytes) :=
    fun t ht => namecmp_setName files[k].name.nul_free (hnamed.short _ hmem) ht
  have hdot : ¬ (dirent ROOTINO dot).Matches (setName files[k].name.bytes old) = true := by
    rw [dirent_matches_iff, not_and]
    intro _
    exact (hcmp (.ofBytes [46] rfl) (by decide)).not.mpr (hnamed.not_dot _ hmem)
  have hdotdot : ¬ (dirent ROOTINO dotdot).Matches (setName files[k].name.bytes old) = true := by
    rw [dirent_matches_iff, not_and]
    intro _
    exact (hcmp (.ofBytes [46, 46] rfl) (by decide)).not.mpr (hnamed.not_dotdot _ hmem)
  have hinum : UInt16.ofNat (k + 2) ≠ 0 := by
    intro hz
    have hnat := congrArg UInt16.toNat hz
    rw [UInt16.toNat_ofNat', Nat.mod_eq_of_lt (by omega)] at hnat
    have hzero : (0 : UInt16).toNat = 0 := rfl
    omega
  unfold entries
  rw [find?_cons, Bool.eq_false_of_not_eq_true hdot]
  dsimp only
  rw [find?_cons, Bool.eq_false_of_not_eq_true hdotdot]
  dsimp only
  rw [find?_eq_some_iff_getElem]
  refine ⟨?_, k, by simpa using hk, ?_, ?_⟩
  · exact dirent_matches_iff.mpr ⟨hinum, (hcmp files[k].name (hnamed.short _ hmem)).mpr rfl⟩
  · simp
  intro j hj
  have hother : files[k].name.bytes ≠ files[j].name.bytes := by
    intro heq
    have hkmap : k < (files.map fun f => f.name.bytes).length := by simpa using hk
    have hjmap : j < (files.map fun f => f.name.bytes).length := hj.trans hkmap
    have hinj : (files.map fun f => f.name.bytes)[k] = (files.map fun f => f.name.bytes)[j] := by
      rw [getElem_map, getElem_map, heq]
    have hsame := hnamed.distinct.getElem_inj_iff.mp hinj
    omega
  have hne := (hcmp files[j].name (hnamed.short _ (getElem_mem _))).not.mpr hother
  rw [getElem_mapIdx, Bool.not_eq_true', ← Bool.not_eq_true, dirent_matches_iff, not_and]
  intro _
  exact hne

theorem reads_file (h : Written files d) (hk : k < files.length) (hst : st.disk = d) (c : Cid) :
    (readInode mkfsSb d (k + 2)).type = T_FILE ∧ (readInode mkfsSb d (k + 2)).size.toNat = files[k].bytes.length ∧
      Reads c (readInode mkfsSb d (k + 2)) st files[k].bytes := by
  obtain ⟨x, hx⟩ := Option.isSome_iff_exists.mp ((h.allocated (k + 2)).mpr (by omega))
  obtain ⟨-, -, hread⟩ := inodesOf_eq_some.mp hx
  have hroot : k + 2 ≠ ROOTINO := by unfold ROOTINO; omega
  have hcontents : contents files (k + 2) = files[k].bytes := contents_file (getElem?_eq_getElem hk)
  have hsize := h.size _ x hx hroot
  have hholds := h.image.holds hx
  rw [hcontents] at hsize hholds
  rw [hread]
  refine ⟨?_, hsize, ?_, ?_⟩
  · rw [h.type _ x hx, typeOf, if_neg hroot]
  · intro off n hoff hsum
    exact readi_file (by rwa [hst]) hsize hoff hsum
  · intro off n hoff
    exact readi_behind (by rwa [hsize]) n

theorem dirlookup_root (h : Written files d) (hcount : files.length ≤ 198) (hnamed : Named files)
    (hk : k < files.length) (hst : st.disk = d) (c : Cid) (old : CharArr DIRSIZ) :
    ∃ off, (readInode mkfsSb d ROOTINO).dirlookup mkfsSb c (setName files[k].name.bytes old) st =
      .ok (some (k + 2, off), readInode mkfsSb d ROOTINO, st) := by
  obtain ⟨x, hx⟩ := Option.isSome_iff_exists.mp ((h.allocated ROOTINO).mpr ⟨by decide, by unfold ROOTINO; omega⟩)
  obtain ⟨-, -, hread⟩ := inodesOf_eq_some.mp hx
  have hholds := h.image.holds hx
  rw [contents_root, ← hst] at hholds
  have hlen : 16 * (entries files).length ≤ x.size.toNat := by
    rw [h.rootsize x hx, ← length_direntBytes, ← contents_root, length_contents_root]
    omega
  have hinum : (dirent (k + 2) (strncpy DIRSIZ files[k].name)).inum.toNat = k + 2 := by
    show (UInt16.ofNat (k + 2)).toNat = k + 2
    rw [UInt16.toNat_ofNat', Nat.mod_eq_of_lt (by omega)]
  rw [hread]
  have hfound : ∃ off, DiskInode.dirlookup mkfsSb c x _ _ = .ok (some (_, off), x, _) :=
    dirlookup_found (h.type _ x hx) hholds hlen (find_entry hcount hnamed hk old)
  rwa [hinum] at hfound

end Written

/-- **What the kernel reads is what `mkfs` was given**: `dirlookup` on the root directory finds every name, in whatever buffer
`skipelem` has left it, and `readi` on the inode it found returns the bytes of the file. -/
theorem mkfs_readBack {files : List Source} (hfits : Fits files) (hnamed : Named files) :
    ((mkfs files).isSome ↔ ∀ f ∈ files, slash ∉ f.shortname.bytes) ∧
      ∀ d, mkfs files = some d → Mounts d ∧ ∀ f ∈ files, ∀ (c : Cid) (st : Store) (old : CharArr DIRSIZ), st.disk = d →
        ∃ inum off, (readInode mkfsSb d ROOTINO).dirlookup mkfsSb c (setName f.name.bytes old) st =
            .ok (some (inum, off), readInode mkfsSb d ROOTINO, st) ∧
          (readInode mkfsSb d inum).type = T_FILE ∧ (readInode mkfsSb d inum).size.toNat = f.bytes.length ∧
          Reads c (readInode mkfsSb d inum) st f.bytes := by
  refine ⟨mkfs_isSome_iff hfits, fun d hd => ?_⟩
  have hwritten := mkfs_written_of_eq hfits hd
  refine ⟨hwritten.mounts, fun f hf c st old hst => ?_⟩
  obtain ⟨k, hk, rfl⟩ := mem_iff_getElem.mp hf
  obtain ⟨off, hlookup⟩ := hwritten.dirlookup_root hfits.count hnamed hk hst c old
  exact ⟨k + 2, off, hlookup, hwritten.reads_file hk hst c⟩

theorem mkfs_readBack_sample : Fits sample ∧ Named sample ∧
    ((mkfs sample).isSome ↔ ∀ f ∈ sample, slash ∉ f.shortname.bytes) ∧
      ∀ d, mkfs sample = some d → Mounts d ∧ ∀ f ∈ sample, ∀ (c : Cid) (st : Store) (old : CharArr DIRSIZ), st.disk = d →
        ∃ inum off, (readInode mkfsSb d ROOTINO).dirlookup mkfsSb c (setName f.name.bytes old) st =
            .ok (some (inum, off), readInode mkfsSb d ROOTINO, st) ∧
          (readInode mkfsSb d inum).type = T_FILE ∧ (readInode mkfsSb d inum).size.toNat = f.bytes.length ∧
          Reads c (readInode mkfsSb d inum) st f.bytes := by
  have hnamed : Named sample := ⟨by decide, by decide, by decide, by decide, by decide⟩
  exact ⟨sample_fits, hnamed, mkfs_readBack sample_fits hnamed⟩

end Xv6.Fs.Mkfs
