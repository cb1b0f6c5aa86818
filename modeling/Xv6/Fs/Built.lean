/-
# Xv6.Fs.Built — the image that `main` of `mkfs` leaves.

Between two calls the inodes on the disk are the table: `Built file img` says which are allocated, that
their sizes are the lengths of their files, and that the disk is the image of these files.  `ialloc` and
`iappend` keep that, and the loop of `main` makes the files the arguments (`contents`).  `Written` is what
is true at the end, when the size of the root directory has been rounded up and the free map is there.
-/
import Xv6.Fs.Image

namespace Xv6.Fs.Mkfs

open Function List Option
open Kernel (CStr CharArr BSIZE ROOTINO strncpy)
open Lib (Bump update_cases update_eq_some)

/-! ## Inodes on the image -/

section Inodes

variable {img : Img} {i next : Nat} {x : DiskInode} {d d' : Disk} {file : Nat → List (BitVec 8)}
  {tab : Nat → Option DiskInode}

section

variable (hi : i < NINODES)
include hi

theorem iblock_lt : (mkfsSb.iblock i).toNat < nmeta := by
  have hlt := (@Superblock.iblock_toNat mkfsSb i hi).2
  have hbmap : mkfsSb.bmapstart = 45 := rfl
  have hmeta : nmeta = 46 := rfl
  omega

theorem rsect_iblock : rsect (mkfsSb.iblock i) img = some (img.disk (mkfsSb.iblock i)) := by
  apply if_pos
  have hlt := iblock_lt hi
  have hmeta : nmeta = 46 := rfl
  unfold FSSIZE
  omega

theorem winode_eq : winode i x img = some { img with disk := writeInode mkfsSb i x img.disk } := by
  unfold winode
  rw [rsect_iblock hi]
  rfl

theorem rinode_eq : rinode i img = some (readInode mkfsSb img.disk i) := by
  unfold rinode
  rw [rsect_iblock hi]
  rfl

end

theorem inodesOf_metadata (h : ∀ b : BlockNo, b.toNat < nmeta → d' b = d b) : inodesOf mkfsSb d' = inodesOf mkfsSb d := by
  apply SameInodes.inodesOf
  intro i hi
  unfold readInode
  rw [h _ (iblock_lt hi)]

theorem addrOf_update (h : ∀ ix, x.addrAt d ix = addrOf tab d (i, ix)) :
    addrOf (update tab i (some x)) d = addrOf tab d := by
  funext ⟨j, ix⟩
  by_cases hj : j = i
  · subst hj
    rw [addrOf_some (update_self ..), h]
  · rw [addrOf, addrOf, update_of_ne hj]

theorem addrOf_setSize (n : BitVec 32) :
    addrOf (update tab i (some { x with size := n })) d = addrOf (update tab i (some x)) d := by
  funext ⟨j, ix⟩
  by_cases hj : j = i
  · subst hj
    rw [addrOf_some (update_self ..), addrOf_some (update_self ..)]
    cases ix with
    | addr k | entry e => rfl
  · rw [addrOf, addrOf, update_of_ne hj, update_of_ne hj]

/-- **The disk catches up with the table.** -/
theorem Image.writeInode (h : Image (update (inodesOf mkfsSb d) i (some x)) file d next) (hi : i < NINODES)
    (ht : x.type ≠ 0) :
    inodesOf mkfsSb (writeInode mkfsSb i x d) = update (inodesOf mkfsSb d) i (some x) ∧
      Image (inodesOf mkfsSb (Fs.writeInode mkfsSb i x d)) file (Fs.writeInode mkfsSb i x d) next := by
  have htab : inodesOf mkfsSb (Fs.writeInode mkfsSb i x d) = update (inodesOf mkfsSb d) i (some x) := by
    rw [inodesOf_writeInode hi, if_neg ht]
  refine ⟨htab, ?_⟩
  rw [htab]
  apply h.congr
  · apply addrOf_congr
    intro j hj
    exact writeInode_of_ne ((h.pool.isData hj).ne_iblock hi)
  · intro a ha
    exact writeInode_of_ne (ha.ne_iblock hi)

end Inodes

/-! ## Between two calls -/

/-- `T_DIR` for the root directory, `T_FILE` for all others. -/
def typeOf (i : Nat) : BitVec 16 := if i = ROOTINO then T_DIR else T_FILE

theorem typeOf_ne_zero (i : Nat) : typeOf i ≠ 0 := by
  unfold typeOf
  split <;> decide

/-- The inodes that `ialloc` has given have the files `file`. -/
structure Built (file : Nat → List (BitVec 8)) (img : Img) : Prop where
  image : Image (inodesOf mkfsSb img.disk) file img.disk img.freeblock
  allocated : ∀ i, (inodesOf mkfsSb img.disk i).isSome ↔ 1 ≤ i ∧ i < img.freeinode
  bound : img.freeinode ≤ NINODES
  type : ∀ i x, inodesOf mkfsSb img.disk i = some x → x.type = typeOf i
  size : ∀ i x, inodesOf mkfsSb img.disk i = some x → x.size.toNat = (file i).length
  front : ∀ b : BlockNo, b.toNat < 32 → img.disk b = start.disk b

theorem front_writeInode {i : Nat} (hi : i < NINODES) (x : DiskInode) (d : Disk) {b : BlockNo} (hb : b.toNat < 32) :
    writeInode mkfsSb i x d b = d b := by
  apply writeInode_of_ne
  rintro rfl
  have hnat := (@Superblock.iblock_toNat mkfsSb i hi).1
  have hstart : mkfsSb.inodestart = 32 := rfl
  omega

theorem start_disk_of_ne {b : BlockNo} (h : b ≠ 1) : start.disk b = fun _ => 0 := by
  show update (fun _ _ => 0) 1 sbBlock b = _
  rw [update_of_ne h]

theorem built_start : Built (fun _ => []) start := by
  have hnone : ∀ i, inodesOf mkfsSb start.disk i = none := by
    intro i
    by_contra hsome
    obtain ⟨x, hx⟩ := ne_none_iff_exists'.mp hsome
    obtain ⟨hi, ht, hread⟩ := inodesOf_eq_some.mp hx
    have hzero : start.disk (mkfsSb.iblock i) = fun _ => 0 := by
      apply start_disk_of_ne
      intro heq
      have hnat := (Superblock.iblock_toNat hi).1
      rw [heq] at hnat
      have hstart : mkfsSb.inodestart = 32 := rfl
      have hone : (1 : BlockNo).toNat = 1 := rfl
      omega
    unfold readInode at hread
    rw [hzero] at hread
    exact ht (hread ▸ rfl)
  have haddr : ∀ p, addrOf (inodesOf mkfsSb start.disk) start.disk p = 0 := fun p => addrOf_none (hnone p.1) p.2
  constructor
  · constructor
    · constructor
      · exact .start (by decide) fun p => by rw [haddr]; rfl
      · decide
      · intro a ha _
        apply start_disk_of_ne
        rintro rfl
        exact absurd ha (by decide)
    · intro i ix
      rw [haddr]
      simp
    · intro i p hp
      cases hp
    · intro i
      exact Nat.zero_le _
  · intro i
    rw [hnone]
    have hone : start.freeinode = 1 := rfl
    rw [hone]
    simp
    omega
  · decide
  · intro i x hx
    rw [hnone] at hx
    cases hx
  · intro i x hx
    rw [hnone] at hx
    cases hx
  · intro b _
    rfl

section Calls

variable {file : Nat → List (BitVec 8)} {img : Img} {i : Nat}

section

variable (h : Built file img)
include h

theorem Built.inode (hi : 1 ≤ i ∧ i < img.freeinode) :
    ∃ x, inodesOf mkfsSb img.disk i = some x ∧ i < NINODES ∧ readInode mkfsSb img.disk i = x ∧ x.type = typeOf i ∧
      x.size.toNat = (file i).length := by
  obtain ⟨x, hx⟩ := isSome_iff_exists.mp ((h.allocated i).mpr hi)
  obtain ⟨hlt, -, hread⟩ := inodesOf_eq_some.mp hx
  exact ⟨x, hx, hlt, hread, h.type i x hx, h.size i x hx⟩

theorem Built.writeBack {d : Disk} {img' : Img} {x : DiskInode}
    (hmeta : ∀ b : BlockNo, b.toNat < nmeta → d b = img.disk b) {file' : Nat → List (BitVec 8)}
    (himage : Image (update (inodesOf mkfsSb img.disk) i (some x)) file' d img'.freeblock)
    (hothers : ∀ j, j ≠ i → file' j = file j) (hi : 1 ≤ i ∧ i < img'.freeinode) (hbound : img'.freeinode ≤ NINODES)
    (hinodes : ∀ j, j ≠ i → (j < img'.freeinode ↔ j < img.freeinode)) (ht : x.type = typeOf i)
    (hs : x.size.toNat = (file' i).length) (hdisk : img'.disk = writeInode mkfsSb i x d) : Built file' img' := by
  have hlt : i < NINODES := hi.2.trans_le hbound
  have hsame := inodesOf_metadata hmeta
  rw [← hsame] at himage
  obtain ⟨htab, himage⟩ := himage.writeInode hlt (by rw [ht]; exact typeOf_ne_zero i)
  rw [hsame, ← hdisk] at htab
  rw [← hdisk] at himage
  constructor
  · exact himage
  · intro j
    rw [htab]
    refine update_cases ?_ (fun j hj => ?_) j
    · exact iff_of_true rfl hi
    · rw [h.allocated, hinodes j hj]
  · exact hbound
  · intro j y hy
    rw [htab] at hy
    obtain ⟨rfl, rfl⟩ | ⟨-, hy⟩ := update_eq_some hy
    · exact ht
    · exact h.type j y hy
  · intro j y hy
    rw [htab] at hy
    obtain ⟨rfl, rfl⟩ | ⟨hj, hy⟩ := update_eq_some hy
    · exact hs
    · rw [hothers j hj]
      exact h.size j y hy
  · intro b hb
    have hfront : b.toNat < nmeta := by
      have hnmeta : nmeta = 46 := rfl
      omega
    rw [hdisk, front_writeInode hlt x d hb, hmeta b hfront]
    exact h.front b hb

/-- **`ialloc` gives the next inode**, with an empty file. -/
theorem ialloc_built (hlt : img.freeinode < NINODES) (hpos : 1 ≤ img.freeinode) :
    ∃ img', ialloc (typeOf img.freeinode) img = some (img.freeinode, img') ∧ Built file img' ∧
      img'.freeinode = img.freeinode + 1 ∧ img'.freeblock = img.freeblock := by
  have hnone : inodesOf mkfsSb img.disk img.freeinode = none := by
    by_contra hsome
    have halloc := (h.allocated img.freeinode).mp (isSome_iff_ne_none.mpr hsome)
    omega
  unfold ialloc
  dsimp only
  rw [winode_eq hlt]
  refine ⟨_, rfl, ?_, rfl, rfl⟩
  refine h.writeBack (d := img.disk) (i := img.freeinode) (fun _ _ => rfl) ?_ (fun _ _ => rfl)
    ⟨hpos, Nat.lt_succ_self _⟩ hlt (fun j hj => ?_) rfl ?_ rfl
  · apply h.image.congr _ fun _ _ => rfl
    apply addrOf_update
    intro ix
    rw [addrOf_none hnone]
    cases ix with
    | addr k | entry j => rfl
  · show j < img.freeinode + 1 ↔ _
    omega
  · rw [h.image.file_eq_nil hnone]
    rfl

/-- **`iappend` appends**, as long as there are blocks. -/
theorem iappend_built (hi : 1 ≤ i ∧ i < img.freeinode) {p : List (BitVec 8)}
    (hshort : (file i).length + p.length ≤ 274432)
    (hroom : img.freeblock + blocksFor ((file i).length + p.length) ≤ FSSIZE + blocksFor (file i).length) :
    ∃ img', iappend i p img = some img' ∧ Built (update file i (file i ++ p)) img' ∧
      img'.freeinode = img.freeinode ∧
      img'.freeblock + blocksFor (file i).length = img.freeblock + blocksFor ((file i).length + p.length) := by
  obtain ⟨x, hx, hlt, hread, ht, hs⟩ := h.inode hi
  obtain ⟨x', img', hloop, happ⟩ := appendLoop_appended i p.length h.image hx (le_refl _) hshort hroom
  have hlen : (update file i (file i ++ p) i).length = (file i).length + p.length := by
    rw [update_self, length_append]
  have ht' : x'.type = typeOf i := by rw [happ.fields]; exact ht
  unfold iappend
  rw [rinode_eq hlt, hread]
  simp only [bind_eq_bind, bind_some]
  rw [hs, hloop, bind_some, winode_eq hlt]
  refine ⟨_, rfl, ?_, happ.inode, happ.counted⟩
  refine h.writeBack (d := img'.disk) (i := i) (x := { x' with size := BitVec.ofNat 32 ((file i).length + p.length) })
    happ.metadata ?_ (fun j hj => update_of_ne hj ..) ?_ ?_ ?_ ht' ?_ rfl
  · apply happ.image.congr _ fun _ _ => rfl
    exact addrOf_setSize _
  · rw [happ.inode]
    exact hi
  · rw [happ.inode]
    exact h.bound
  · intro j _
    rw [happ.inode]
  · show (BitVec.ofNat 32 _).toNat = _
    rw [hlen, BitVec.toNat_ofNat, Nat.mod_eq_of_lt (by omega)]

end

theorem appendAll_built (i : Nat) (reads : List (List (BitVec 8))) :
    ∀ {file : Nat → List (BitVec 8)} {img : Img}, Built file img → 1 ≤ i ∧ i < img.freeinode →
    (file i).length + reads.flatten.length ≤ 274432 →
    img.freeblock + blocksFor ((file i).length + reads.flatten.length) ≤ FSSIZE + blocksFor (file i).length →
    ∃ img', reads.foldlM (fun img buf => iappend i buf img) img = some img' ∧
      Built (update file i (file i ++ reads.flatten)) img' ∧ img'.freeinode = img.freeinode ∧
      img'.freeblock + blocksFor (file i).length =
        img.freeblock + blocksFor ((file i).length + reads.flatten.length) := by
  induction reads with
  | nil =>
    intro file img h _ _ _
    refine ⟨img, rfl, ?_, rfl, rfl⟩
    rw [flatten_nil, append_nil, update_eq_self]
    exact h
  | cons r reads ih =>
    intro file img h hi hshort hroom
    rw [flatten_cons, length_append] at hshort hroom ⊢
    have hmono := blocksFor_mono (m := (file i).length + r.length)
      (n := (file i).length + (r.length + reads.flatten.length)) (by omega)
    obtain ⟨img1, hrun, h1, hinode1, hcount1⟩ := iappend_built h hi (p := r) (by omega) (by omega)
    have hlen : (update file i (file i ++ r) i).length = (file i).length + r.length := by
      rw [update_self, length_append]
    have hroom1 : img1.freeblock + blocksFor ((update file i (file i ++ r) i).length + reads.flatten.length) ≤
        FSSIZE + blocksFor (update file i (file i ++ r) i).length := by
      rw [hlen, Nat.add_assoc]
      omega
    obtain ⟨img2, hrest, h2, hinode2, hcount2⟩ := ih h1 (by rwa [hinode1]) (by omega) hroom1
    refine ⟨img2, ?_, ?_, hinode2.trans hinode1, ?_⟩
    · rw [foldlM_cons, hrun]
      exact hrest
    · rwa [update_idem, update_self, append_assoc] at h2
    · rw [hlen, Nat.add_assoc] at hcount2
      omega

end Calls

/-! ## `main` -/

def entries (files : List Source) : List Dirent :=
  dirent ROOTINO dot :: dirent ROOTINO dotdot :: files.mapIdx fun k f => dirent (k + 2) (strncpy DIRSIZ f.name)

def contents (files : List Source) (i : Nat) : List (BitVec 8) :=
  if i = ROOTINO then direntBytes (entries files)
  else if i < 2 then [] else (files[i - 2]?.map Source.bytes).getD []

def blocksUsed (files : List Source) : Nat :=
  nmeta + blocksFor (16 * (files.length + 2)) + (files.map fun f => blocksFor f.bytes.length).sum

structure Fits (files : List Source) : Prop where
  count : files.length ≤ NINODES - 2
  short : ∀ f ∈ files, f.bytes.length ≤ MAXFILE * BSIZE
  blocks : blocksUsed files ≤ FSSIZE

section Main

variable {files : List Source} {img : Img} {f : Source}

theorem entries_concat (files : List Source) (f : Source) :
    entries (files ++ [f]) = entries files ++ [dirent (files.length + 2) (strncpy DIRSIZ f.name)] := by
  unfold entries
  rw [mapIdx_concat]
  rfl

theorem contents_root (files : List Source) : contents files ROOTINO = direntBytes (entries files) := if_pos rfl

theorem length_contents_root (files : List Source) : (contents files ROOTINO).length = 16 * (files.length + 2) := by
  rw [contents_root, length_direntBytes]
  simp [entries]

theorem contents_file {k : Nat} (h : files[k]? = some f) : contents files (k + 2) = f.bytes := by
  have hroot : k + 2 ≠ ROOTINO := by unfold ROOTINO; omega
  unfold contents
  rw [if_neg hroot, if_neg (by omega), Nat.add_sub_cancel, h]
  rfl

theorem contents_concat (files : List Source) (f : Source) :
    contents (files ++ [f]) =
      update (update (contents files) ROOTINO
        (contents files ROOTINO ++ (dirent (files.length + 2) (strncpy DIRSIZ f.name)).bytes)) (files.length + 2)
        f.bytes := by
  funext i
  have hroot : ROOTINO = 1 := rfl
  by_cases hi : i = files.length + 2
  · subst hi
    rw [update_self]
    exact contents_file (getElem?_concat_length)
  rw [update_of_ne hi]
  by_cases hr : i = ROOTINO
  · subst hr
    rw [update_self, contents_root, contents_root, entries_concat]
    unfold direntBytes
    rw [flatMap_append, flatMap_singleton]
  rw [update_of_ne hr]
  unfold contents
  rw [if_neg hr, if_neg hr]
  by_cases hlow : i < 2
  · rw [if_pos hlow, if_pos hlow]
  rw [if_neg hlow, if_neg hlow]
  by_cases hlt : i - 2 < files.length
  · rw [getElem?_append_left hlt]
  · have hout : (files ++ [f]).length ≤ i - 2 := by
      rw [length_append, length_singleton]
      omega
    rw [getElem?_eq_none hout, getElem?_eq_none (by omega)]

theorem blocksUsed_concat (files : List Source) (f : Source) :
    blocksUsed (files ++ [f]) + blocksFor (16 * (files.length + 2)) =
      blocksUsed files + blocksFor (16 * (files.length + 3)) + blocksFor f.bytes.length := by
  unfold blocksUsed
  rw [length_append, length_singleton, map_append, sum_append, map_singleton, sum_singleton]
  have hlen : 16 * (files.length + 1 + 2) = 16 * (files.length + 3) := by omega
  rw [hlen]
  omega

theorem blocksUsed_le_append (files rest : List Source) : blocksUsed files ≤ blocksUsed (files ++ rest) := by
  unfold blocksUsed
  have hmono := blocksFor_mono (m := 16 * (files.length + 2)) (n := 16 * ((files ++ rest).length + 2)) (by
    rw [length_append]
    omega)
  rw [map_append, sum_append]
  omega

theorem contents_next (files : List Source) : contents files (files.length + 2) = [] := by
  have hroot : files.length + 2 ≠ ROOTINO := by unfold ROOTINO; omega
  unfold contents
  rw [if_neg hroot, if_neg (by omega), getElem?_eq_none (by omega)]
  rfl

theorem addFile_built (hfits : Fits (files ++ [f])) (hslash : slash ∉ f.shortname.bytes)
    (h : Built (contents files) img) (hinode : img.freeinode = files.length + 2)
    (hblock : img.freeblock = blocksUsed files) :
    ∃ img', addFile ROOTINO img f = some img' ∧ Built (contents (files ++ [f])) img' ∧
      img'.freeinode = (files ++ [f]).length + 2 ∧ img'.freeblock = blocksUsed (files ++ [f]) := by
  have hroot : ROOTINO = 1 := rfl
  have hcount : files.length + 1 ≤ 198 := by
    have hle := hfits.count
    rwa [length_append, length_singleton] at hle
  have hshort : f.bytes.length ≤ 274432 := hfits.short f (by simp)
  have hused := blocksUsed_concat files f
  have hmax := hfits.blocks
  have hlen := length_contents_root files
  have htype : T_FILE = typeOf img.freeinode := by rw [hinode, typeOf, if_neg (by omega)]
  -- the inode, its entry, its contents
  obtain ⟨img1, hialloc, h1, hinode1, hblock1⟩ := ialloc_built h (by rw [hinode]; unfold NINODES; omega) (by omega)
  have hmono := blocksFor_mono (m := 16 * (files.length + 2)) (n := 16 * (files.length + 3)) (by omega)
  have hentry : ((contents files ROOTINO).length + (dirent img.freeinode (strncpy DIRSIZ f.name)).bytes.length) =
      16 * (files.length + 3) := by
    rw [hlen, Dirent.length_bytes]
    omega
  obtain ⟨img2, hdir, h2, hinode2, hblock2⟩ := iappend_built (i := ROOTINO) h1
    (p := (dirent img.freeinode (strncpy DIRSIZ f.name)).bytes) (by omega) (by omega) (by rw [hentry, hlen]; omega)
  have hnil : update (contents files) ROOTINO
      (contents files ROOTINO ++ (dirent img.freeinode (strncpy DIRSIZ f.name)).bytes) img.freeinode = [] := by
    rw [update_of_ne (by omega), hinode, contents_next]
  rw [hentry, hlen] at hblock2
  obtain ⟨img3, hreads, h3, hinode3, hblock3⟩ := appendAll_built img.freeinode f.reads h2 (by omega)
    (by rw [hnil]; simpa [Source.bytes] using hshort) (by
      rw [hnil, length_nil, Nat.zero_add]
      have hzero : blocksFor 0 = 0 := rfl
      have hbytes : f.reads.flatten.length = f.bytes.length := rfl
      rw [hzero, hbytes]
      omega)
  refine ⟨img3, ?_, ?_, ?_, ?_⟩
  · unfold addFile
    rw [if_neg hslash, htype]
    simp only [hialloc, hdir, hreads, bind_eq_bind, bind_some]
  · rw [hnil, nil_append, hinode] at h3
    rw [contents_concat]
    exact h3
  · rw [length_append, length_singleton]
    omega
  rw [hnil, length_nil, Nat.zero_add] at hblock3
  have hzero : blocksFor 0 = 0 := rfl
  have hbytes : f.reads.flatten.length = f.bytes.length := rfl
  rw [hzero, hbytes] at hblock3
  omega

theorem addFiles_built (rest : List Source) : ∀ {files : List Source} {img : Img}, Fits (files ++ rest) →
    (∀ f ∈ rest, slash ∉ f.shortname.bytes) → Built (contents files) img → img.freeinode = files.length + 2 →
    img.freeblock = blocksUsed files →
    ∃ img', rest.foldlM (addFile ROOTINO) img = some img' ∧ Built (contents (files ++ rest)) img' ∧
      img'.freeinode = (files ++ rest).length + 2 ∧ img'.freeblock = blocksUsed (files ++ rest) := by
  induction rest with
  | nil =>
    intro files img _ _ h hinode hblock
    rw [append_nil]
    exact ⟨img, rfl, h, hinode, hblock⟩
  | cons f rest ih =>
    intro files img hfits hslash h hinode hblock
    have happ : files ++ f :: rest = (files ++ [f]) ++ rest := by simp
    rw [happ] at hfits ⊢
    have hfirst : Fits (files ++ [f]) := by
      constructor
      · have hle := hfits.count
        rw [length_append] at hle
        omega
      · intro g hg
        exact hfits.short g (mem_append_left rest hg)
      · exact (blocksUsed_le_append (files ++ [f]) rest).trans hfits.blocks
    obtain ⟨img1, hrun, h1, hinode1, hblock1⟩ := addFile_built hfirst (hslash f mem_cons_self) h hinode hblock
    obtain ⟨img2, hrest, hdone⟩ := ih hfits (fun g hg => hslash g (mem_cons_of_mem f hg)) h1 hinode1 hblock1
    refine ⟨img2, ?_, hdone⟩
    rw [foldlM_cons, hrun]
    exact hrest

end Main

/-- **The bits of the map are those below `used`.** -/
theorem bitmap_bit {used b : Nat} (hused : used ≤ 8192) (hb : b < 8192) :
    (bitmap used (bitWord b)).getLsbD (b % 32) = decide (b < used) := by
  induction used with
  | zero => simp [bitmap]
  | succ n ih =>
    have hstep : bitmap (n + 1) = update (bitmap n) (bitWord n) (bitmap n (bitWord n) ||| 1#32 <<< (n % 32)) := by
      unfold bitmap
      rw [range_succ, foldl_append, foldl_cons, foldl_nil]
    rw [hstep]
    by_cases hword : bitWord b = bitWord n
    · have hw : b % 8192 / 32 = n % 8192 / 32 := congrArg Fin.val hword
      have hbit : b % 32 = n % 32 ↔ b = n := by omega
      have hmark := getLsbD_mark (j := b % 32) (k := n % 32) (Nat.mod_lt b (by decide)) (bitmap n (bitWord n)) true
      rw [if_pos rfl] at hmark
      rw [hword, update_self, hmark]
      by_cases heq : b = n
      · rw [if_pos (hbit.mpr heq)]
        exact (decide_eq_true (by omega)).symm
      · rw [if_neg fun hc => heq (hbit.mp hc), ← hword, ih (by omega)]
        exact decide_eq_decide.mpr (by omega)
    · have hne : b ≠ n := by
        rintro rfl
        exact hword rfl
      rw [update_of_ne hword, ih (by omega)]
      exact decide_eq_decide.mpr (by omega)

theorem bblock_eq {b : Nat} (hb : b < FSSIZE) : mkfsSb.bblock b = BitVec.ofNat 32 mkfsSb.bmapstart := by
  unfold Superblock.bblock
  have hdiv : b / 8192 = 0 := Nat.div_eq_of_lt (Nat.lt_trans hb (by decide))
  rw [hdiv, Nat.zero_add]

/-! ## The image -/

structure Written (files : List Source) (d : Disk) : Prop where
  image : Image (inodesOf mkfsSb d) (contents files) d (blocksUsed files)
  allocated : ∀ i, (inodesOf mkfsSb d i).isSome ↔ 1 ≤ i ∧ i < files.length + 2
  type : ∀ i x, inodesOf mkfsSb d i = some x → x.type = typeOf i
  size : ∀ i x, inodesOf mkfsSb d i = some x → i ≠ ROOTINO → x.size.toNat = (contents files i).length
  rootsize : ∀ x, inodesOf mkfsSb d ROOTINO = some x → x.size.toNat = (16 * (files.length + 2) / 1024 + 1) * 1024
  front : ∀ b : BlockNo, b.toNat < 32 → d b = start.disk b
  bits : ∀ b, b < FSSIZE → bit mkfsSb d b = decide (b < blocksUsed files)

theorem dots_built : ∃ img0 img1 img2, ialloc T_DIR start = some (ROOTINO, img0) ∧
    iappend ROOTINO (dirent ROOTINO dot).bytes img0 = some img1 ∧
    iappend ROOTINO (dirent ROOTINO dotdot).bytes img1 = some img2 ∧ Built (contents []) img2 ∧ img2.freeinode = 2 ∧
    img2.freeblock = blocksUsed [] := by
  have hroot : ROOTINO = 1 := rfl
  have hstart : start.freeinode = 1 := rfl
  have hblock : start.freeblock = 46 := rfl
  have h0 : blocksFor 0 = 0 := rfl
  have h16 : blocksFor 16 = 1 := rfl
  have h32 : blocksFor 32 = 1 := rfl
  have hdot : (dirent ROOTINO dot).bytes.length = 16 := Dirent.length_bytes _
  have hdotdot : (dirent ROOTINO dotdot).bytes.length = 16 := Dirent.length_bytes _
  obtain ⟨img0, hrun0, hb0, hi0, hf0⟩ := ialloc_built built_start (by rw [hstart]; decide) (by omega)
  obtain ⟨img1, hrun1, hb1, hi1, hf1⟩ := iappend_built (i := ROOTINO) hb0 (p := (dirent ROOTINO dot).bytes) (by omega)
    (by rw [hdot]; decide) (by rw [hdot, length_nil, Nat.zero_add, h16, h0]; unfold FSSIZE; omega)
  rw [hdot, length_nil, Nat.zero_add, h16, h0] at hf1
  have hlen : (update (fun _ => []) ROOTINO ([] ++ (dirent ROOTINO dot).bytes) ROOTINO : List (BitVec 8)).length = 16 := by
    rw [update_self, nil_append, hdot]
  obtain ⟨img2, hrun2, hb2, hi2, hf2⟩ := iappend_built (i := ROOTINO) hb1 (p := (dirent ROOTINO dotdot).bytes) (by omega)
    (by rw [hlen, hdotdot]; decide) (by rw [hlen, hdotdot, h32, h16]; unfold FSSIZE; omega)
  rw [hlen, hdotdot, h32, h16] at hf2
  refine ⟨img0, img1, img2, hrun0, hrun1, hrun2, ?_, by omega, ?_⟩
  · rw [update_idem, update_self, nil_append] at hb2
    have hfile : update (fun _ => []) ROOTINO ((dirent ROOTINO dot).bytes ++ (dirent ROOTINO dotdot).bytes) =
        contents [] := by
      funext i
      unfold contents
      refine update_cases ?_ (fun i hi => ?_) i
      · rw [if_pos rfl]
        rfl
      · rw [if_neg hi]
        split <;> rfl
    rwa [hfile] at hb2
  · have hused : blocksUsed [] = 47 := rfl
    omega

/-- `fixSize` and `balloc`, as two writes. -/
def finish (x : DiskInode) (img : Img) : Disk :=
  update (writeInode mkfsSb ROOTINO (roundUp x) img.disk) (BitVec.ofNat 32 mkfsSb.bmapstart) (bitmap img.freeblock)

section Finish

variable {files : List Source} {img : Img} {x : DiskInode}

theorem finish_of_ne {b : BlockNo} (hb : b.toNat ≠ 45) :
    finish x img b = writeInode mkfsSb ROOTINO (roundUp x) img.disk b := by
  apply update_of_ne
  rintro rfl
  exact hb rfl

theorem Built.finish_image (h : Built (contents files) img) (hx : inodesOf mkfsSb img.disk ROOTINO = some x) :
    inodesOf mkfsSb (finish x img) = update (inodesOf mkfsSb img.disk) ROOTINO (some (roundUp x)) ∧
      Image (inodesOf mkfsSb (finish x img)) (contents files) (finish x img) img.freeblock := by
  have hlt : ROOTINO < NINODES := by decide
  have ht : x.type ≠ 0 := by rw [h.type _ x hx]; exact typeOf_ne_zero _
  have hresized : Image (update (inodesOf mkfsSb img.disk) ROOTINO (some (roundUp x))) (contents files) img.disk
      img.freeblock := by
    apply h.image.congr _ fun _ _ => rfl
    rw [roundUp, addrOf_setSize, ← hx, update_eq_self]
  obtain ⟨htab, himage⟩ := hresized.writeInode hlt ht
  have hinodes : inodesOf mkfsSb (finish x img) = update (inodesOf mkfsSb img.disk) ROOTINO (some (roundUp x)) := by
    rw [← htab]
    apply SameInodes.inodesOf
    intro i hi
    have hiblock := (Superblock.iblock_toNat hi).2
    have hstart : mkfsSb.bmapstart = 45 := rfl
    unfold readInode
    rw [finish_of_ne (by omega)]
  refine ⟨hinodes, ?_⟩
  rw [hinodes]
  rw [htab] at himage
  have hmeta : nmeta = 46 := rfl
  apply himage.congr
  · apply addrOf_congr
    intro j hj
    have hlow := (himage.pool.range hj).1
    exact finish_of_ne (by omega)
  · intro a ha
    have hlow : 46 ≤ a.toNat := ha.1
    exact finish_of_ne (by omega)

theorem Built.written (h : Built (contents files) img) (hcount : files.length ≤ 198)
    (hinode : img.freeinode = files.length + 2) (hblock : img.freeblock = blocksUsed files)
    (hx : inodesOf mkfsSb img.disk ROOTINO = some x) : Written files (finish x img) := by
  obtain ⟨hinodes, himage⟩ := h.finish_image hx
  have hused : img.freeblock ≤ 5000 := h.image.pool.fits
  constructor
  · rwa [hblock] at himage
  · intro i
    rw [hinodes, ← hinode]
    refine update_cases ?_ (fun i _ => ?_) i
    · have hroot := (h.allocated ROOTINO).mp (isSome_iff_exists.mpr ⟨x, hx⟩)
      exact iff_of_true rfl hroot
    · rw [h.allocated]
  · intro i y hy
    rw [hinodes] at hy
    obtain ⟨rfl, rfl⟩ | ⟨-, hy⟩ := update_eq_some hy
    · exact h.type _ x hx
    · exact h.type i y hy
  · intro i y hy hi
    rw [hinodes, update_of_ne hi] at hy
    exact h.size i y hy
  · intro y hy
    rw [hinodes, update_self] at hy
    cases hy
    show (BitVec.ofNat 32 ((x.size.toNat / BSIZE + 1) * BSIZE)).toNat = _
    rw [h.size _ x hx, length_contents_root, BitVec.toNat_ofNat]
    exact Nat.mod_eq_of_lt (by unfold BSIZE; omega)
  · intro b hb
    rw [finish_of_ne (by omega), front_writeInode (by decide) _ _ hb]
    exact h.front b hb
  · intro b hb
    have hb' : b < 5000 := hb
    unfold bit finish
    rw [bblock_eq hb, update_self, bitmap_bit (by omega) (by omega), hblock]

/-- **`mkfs` writes an image of its files.** -/
theorem mkfs_written (hfits : Fits files) (hslash : ∀ f ∈ files, slash ∉ f.shortname.bytes) :
    ∃ d, mkfs files = some d ∧ Written files d := by
  obtain ⟨img0, img1, img2, hrun0, hrun1, hrun2, hb2, hi2, hf2⟩ := dots_built
  obtain ⟨img3, hrun3, hb3, hi3, hf3⟩ := @addFiles_built files [] _ hfits hslash hb2 hi2 hf2
  rw [nil_append] at hb3 hi3 hf3
  have hroot : ROOTINO = 1 := rfl
  obtain ⟨x, hx, hlt, hread, -, -⟩ := hb3.inode (i := ROOTINO) (by omega)
  refine ⟨finish x img3, ?_, hb3.written hfits.count hi3 hf3 hx⟩
  have hballoc : img3.freeblock < BSIZE * 8 := by
    have hused : img3.freeblock ≤ 5000 := hb3.image.pool.fits
    have hB : BSIZE = 1024 := rfl
    omega
  unfold mkfs
  simp only [hrun0, hrun1, hrun2, hrun3, bind_eq_bind, bind_some, ne_eq, not_true_eq_false, if_false]
  unfold fixSize
  rw [rinode_eq hlt, hread]
  simp only [bind_eq_bind, bind_some]
  rw [winode_eq hlt]
  unfold balloc
  dsimp only [bind_some]
  rw [if_pos hballoc]
  rfl

theorem mkfs_slash {f : Source} (hf : f ∈ files) (hslash : slash ∈ f.shortname.bytes) : mkfs files = none := by
  have hloop : ∀ (rest : List Source) (rootino : Nat) (img : Img), f ∈ rest → rest.foldlM (addFile rootino) img = none := by
    intro rest rootino
    induction rest with
    | nil =>
      intro img hmem
      cases hmem
    | cons g rest ih =>
      intro img hmem
      rw [foldlM_cons]
      rcases mem_cons.mp hmem with rfl | hmem
      · unfold addFile
        rw [if_pos hslash]
        rfl
      · cases hrun : addFile rootino img g with
        | none => rfl
        | some img' => exact ih img' hmem
  obtain ⟨img0, img1, img2, hrun0, hrun1, hrun2, -⟩ := dots_built
  unfold mkfs
  simp only [hrun0, hrun1, hrun2, hloop files ROOTINO img2 hf, bind_eq_bind, bind_some, bind_none,
    ne_eq, not_true_eq_false, if_false]

end Finish

end Xv6.Fs.Mkfs
