/-
# Xv6.Fs.Image — what `iappend` of `mkfs` does to the image.

A table of inodes over a disk makes an address for every place (`addrOf`, `0` for none).  The addresses
come from one counter, so together they are the blocks between the metadata and the counter, each at one
place (`Pool`); and which places have one is determined by the lengths of the files, which the blocks
hold byte for byte (`Image`).  A write to the image changes the addresses at one place or at none: those
are the three equations about `addrOf` that everything else rests on.

As in `Fs.Ownership`, the table has the copy of the inode that `iappend` works on, and the disk gets it
at the end.
-/
import Xv6.Fs.Mkfs

namespace Xv6.Fs.Mkfs

open Function List
open Kernel (BSIZE)
open Lib (Bump)

/-- The address at a place, `0` for none. -/
def addrOf (tab : Nat → Option DiskInode) (d : Disk) (p : Place) : BlockNo := (tab p.1).elim 0 (·.addrAt d p.2)

/-- The first byte of a file that needs the block at the index. -/
def first : Index → Nat
  | .addr k => k * 1024
  | .entry j => (12 + j) * 1024

/-- How many blocks a file of `n` bytes has, the indirect block included. -/
def blocksFor (n : Nat) : Nat := (n + 1023) / 1024 + if 12288 < n then 1 else 0

theorem first_ofBlock {bn : Nat} (h : bn < MAXFILE) : first (.ofBlock bn) = bn * 1024 := by
  have hmax : MAXFILE = 268 := rfl
  unfold Index.ofBlock
  split
  · rfl
  · show (12 + (bn - 12) % 256) * 1024 = bn * 1024
    omega

theorem first_indirect : first (.addr (Fin.last 12)) = 12288 := rfl

theorem first_eq_ofBlock {ix : Index} {bn : Nat} (hbn : bn < MAXFILE) (h : first ix = bn * 1024) :
    ix = .ofBlock bn ∨ ix = .addr (Fin.last 12) := by
  have hmax : MAXFILE = 268 := rfl
  cases ix with
  | addr k =>
    have hk : k.val * 1024 = bn * 1024 := h
    by_cases hlast : k = Fin.last 12
    · exact .inr (congrArg Index.addr hlast)
    have hlt : bn < 12 := by
      have hval : k.val ≠ 12 := fun hv => hlast (Fin.ext hv)
      omega
    refine .inl ?_
    rw [Index.ofBlock, dif_pos hlt]
    exact congrArg Index.addr (Fin.ext (by dsimp only; omega))
  | entry j =>
    have hj : (12 + j.val) * 1024 = bn * 1024 := h
    refine .inl ?_
    rw [Index.ofBlock, dif_neg (by omega)]
    exact congrArg Index.entry (Fin.ext (by dsimp only; omega))

section Addresses

variable {tab : Nat → Option DiskInode} {d : Disk} {i : Nat} {x : DiskInode} {a : BlockNo}

theorem addrOf_some (hx : tab i = some x) (ix : Index) : addrOf tab d (i, ix) = x.addrAt d ix := by
  rw [addrOf, hx]
  rfl

theorem addrOf_none (hx : tab i = none) (ix : Index) : addrOf tab d (i, ix) = 0 := by
  rw [addrOf, hx]
  rfl

/-- Addresses depend on the indirect blocks and on nothing else of the disk. -/
theorem addrOf_congr {d' : Disk} (h : ∀ j, addrOf tab d (j, .addr (Fin.last 12)) ≠ 0 →
    d' (addrOf tab d (j, .addr (Fin.last 12))) = d (addrOf tab d (j, .addr (Fin.last 12)))) :
    addrOf tab d' = addrOf tab d := by
  funext ⟨j, ix⟩
  cases hy : tab j with
  | none => rw [addrOf_none hy, addrOf_none hy]
  | some y =>
    rw [addrOf_some hy, addrOf_some hy]
    have hj := h j
    rw [addrOf_some hy] at hj
    exact DiskInode.addrAt_congr hj ix

theorem addrOf_addr (hx : tab i = some x) {k : Fin 13} (hk : x.addrs k = 0) (ha : a ≠ 0)
    (hfresh : d a = fun _ => 0) :
    addrOf (update tab i (some { x with addrs := update x.addrs k a })) d = update (addrOf tab d) (i, .addr k) a := by
  funext ⟨j, ix⟩
  by_cases hj : j = i
  · subst hj
    rw [addrOf_some (update_self ..)]
    cases ix with
    | addr k' =>
      by_cases hkk : k' = k
      · subst hkk
        rw [update_self]
        exact update_self ..
      · rw [update_of_ne (by simpa using hkk), addrOf_some hx]
        exact update_of_ne hkk ..
    | entry e =>
      rw [update_of_ne (by simp), addrOf_some hx]
      unfold DiskInode.addrAt
      by_cases hlast : Fin.last 12 = k
      · subst hlast
        simp only [update_self, if_neg ha, hk, hfresh, if_true]
      · simp only [update_of_ne hlast]
  · rw [update_of_ne (by simp [hj]), addrOf, addrOf, update_of_ne hj]

end Addresses

/-! ## Blocks from the counter -/

/-- The addresses are the blocks from the metadata up to `next`, each at one
place, and the blocks behind are empty. -/
structure Pool (tab : Nat → Option DiskInode) (d : Disk) (next : Nat) : Prop where
  bump : Bump nmeta next fun p => (addrOf tab d p).toNat
  fits : next ≤ FSSIZE
  fresh : ∀ a : BlockNo, next ≤ a.toNat → a.toNat < FSSIZE → d a = fun _ => 0

namespace Pool

variable {tab : Nat → Option DiskInode} {d d' : Disk} {next i : Nat} {p q : Place} {x : DiskInode}

theorem toNat_ne_zero {a : BlockNo} : a.toNat ≠ 0 ↔ a ≠ 0 := by
  rw [Ne, Ne, ← BitVec.toNat_inj]
  rfl

section

variable (h : Pool tab d next)
include h

section

variable (hp : addrOf tab d p ≠ 0)
include hp

theorem inj (hpq : addrOf tab d p = addrOf tab d q) : p = q :=
  h.bump.inj (toNat_ne_zero.mpr hp) (congrArg BitVec.toNat hpq)

theorem range : nmeta ≤ (addrOf tab d p).toNat ∧ (addrOf tab d p).toNat < next := h.bump.range (toNat_ne_zero.mpr hp)

theorem isData : mkfsSb.IsData (addrOf tab d p) := ⟨(h.range hp).1, (h.range hp).2.trans_le h.fits⟩

end

theorem next_toNat : (BitVec.ofNat 32 next).toNat = next := by
  have hfits := h.fits
  rw [BitVec.toNat_ofNat, Nat.mod_eq_of_lt (by unfold FSSIZE at hfits; omega)]

theorem next_ne_zero : BitVec.ofNat 32 next ≠ 0 := by
  rw [← toNat_ne_zero, h.next_toNat]
  exact h.bump.next_ne_zero

theorem next_fresh (hlt : next < FSSIZE) : d (BitVec.ofNat 32 next) = fun _ => 0 :=
  h.fresh _ (by rw [h.next_toNat]) (by rwa [h.next_toNat])

/-- **The counter is handed to a place.** -/
theorem alloc (hp : addrOf tab d p = 0) (hlt : next < FSSIZE) {tab' : Nat → Option DiskInode}
    (haddr : addrOf tab' d' = update (addrOf tab d) p (BitVec.ofNat 32 next))
    (hdisk : ∀ a : BlockNo, next < a.toNat → d' a = d a) : Pool tab' d' (next + 1) where
  bump := by
    have hcell : (fun q => (addrOf tab' d' q).toNat) = update (fun q => (addrOf tab d q).toNat) p next := by
      funext q
      rw [haddr]
      by_cases hq : q = p
      · subst hq
        rw [update_self, update_self, h.next_toNat]
      · rw [update_of_ne hq, update_of_ne hq]
    rw [hcell]
    exact h.bump.alloc (by rw [hp]; rfl)
  fits := hlt
  fresh a ha hsize := by
    rw [hdisk a ha]
    exact h.fresh a (Nat.le_of_succ_le ha) hsize

theorem addrOf_entry (hx : tab i = some x) (hind : x.addrs (Fin.last 12) ≠ 0)
    (j : Fin 256) (a : BlockNo) :
    addrOf tab (update d (x.addrs (Fin.last 12)) (update (d (x.addrs (Fin.last 12))) j a)) =
      update (addrOf tab d) (i, .entry j) a := by
  have hplace : addrOf tab d (i, .addr (Fin.last 12)) = x.addrs (Fin.last 12) := addrOf_some hx _
  funext ⟨k, ix⟩
  by_cases hk : k = i
  · subst hk
    rw [addrOf_some hx]
    cases ix with
    | addr k' =>
      rw [update_of_ne (by simp), addrOf_some hx]
      rfl
    | entry e =>
      dsimp only [DiskInode.addrAt]
      rw [if_neg hind, update_self]
      by_cases he : e = j
      · subst he
        rw [update_self, update_self]
      · rw [update_of_ne he, update_of_ne (by simpa using he), addrOf_some hx]
        exact (if_neg hind).symm
  · rw [update_of_ne (by simp [hk])]
    cases hy : tab k with
    | none => rw [addrOf_none hy, addrOf_none hy]
    | some y =>
      rw [addrOf_some hy, addrOf_some hy]
      apply DiskInode.addrAt_congr
      intro hne
      apply update_of_ne
      -- two inodes do not share their indirect block
      intro heq
      have hyplace : addrOf tab d (k, .addr (Fin.last 12)) = y.addrs (Fin.last 12) := addrOf_some hy _
      have hsame := h.inj (by rwa [hyplace]) (hyplace.trans (heq.trans hplace.symm))
      exact hk (congrArg Prod.fst hsame)

theorem addrOf_data (i bn : Nat) (blk : Block) :
    addrOf tab (update d (addrOf tab d (i, .ofBlock bn)) blk) = addrOf tab d := by
  apply addrOf_congr
  intro j hj
  apply update_of_ne
  intro heq
  exact Index.ofBlock_ne bn (congrArg Prod.snd (h.inj hj heq)).symm

theorem write {bn : Nat} (hp : addrOf tab d (i, .ofBlock bn) ≠ 0) (blk : Block) :
    Pool tab (update d (addrOf tab d (i, .ofBlock bn)) blk) next where
  bump := by rw [h.addrOf_data]; exact h.bump
  fits := h.fits
  fresh a ha hsize := by
    have hne : a ≠ addrOf tab d (i, .ofBlock bn) := by
      rintro rfl
      exact absurd (h.range hp).2 (Nat.not_lt.mpr ha)
    rw [update_of_ne hne]
    exact h.fresh a ha hsize

end

end Pool

/-! ## The image of a list of files -/

/-- Inode `i` of the table has `file i`, and the blocks it needs for that and
no others. -/
structure Image (tab : Nat → Option DiskInode) (file : Nat → List (BitVec 8)) (d : Disk) (next : Nat) : Prop where
  pool : Pool tab d next
  shape : ∀ i ix, addrOf tab d (i, ix) ≠ 0 ↔ first ix < (file i).length
  byte_eq : ∀ i p, p < (file i).length →
    byteAt (d (addrOf tab d (i, .ofBlock (p / 1024)))) (p % 1024) = (file i).getD p 0
  short : ∀ i, (file i).length ≤ 274432

namespace Image

variable {tab tab' : Nat → Option DiskInode} {file : Nat → List (BitVec 8)} {d d' : Disk} {next i : Nat}
variable {x : DiskInode} (h : Image tab file d next)
include h

theorem mapped {p : Nat} (hp : p < (file i).length) : addrOf tab d (i, .ofBlock (p / 1024)) ≠ 0 := by
  have hshort := h.short i
  have hmax : MAXFILE = 268 := rfl
  rw [h.shape, first_ofBlock (by omega)]
  omega

/-- **The kernel's view**: an inode of the table holds its file. -/
theorem holds (hx : tab i = some x) : x.Holds d (file i) where
  mapped bn hbn := by
    have hshort := h.short i
    have hmax : MAXFILE = 268 := rfl
    have hlt : bn < MAXFILE := by omega
    refine ⟨hlt, ?_⟩
    rw [← addrOf_some hx, h.shape, first_ofBlock hlt]
    exact hbn
  byte_eq p hp := by
    have hbyte := h.byte_eq i p hp
    rwa [addrOf_some hx, getD_eq_getElem _ _ hp] at hbyte

theorem file_eq_nil (hx : tab i = none) : file i = [] := by
  have hshape := h.shape i (.addr 0)
  rw [addrOf_none hx] at hshape
  have hlen : ¬ 0 < (file i).length := fun hpos => hshape.mpr hpos rfl
  exact length_eq_zero_iff.mp (by omega)

theorem congr (haddr : addrOf tab' d' = addrOf tab d)
    (hdata : ∀ a : BlockNo, mkfsSb.IsData a → d' a = d a) : Image tab' file d' next where
  pool := by
    constructor
    · rw [haddr]
      exact h.pool.bump
    · exact h.pool.fits
    · intro a ha hsize
      rw [hdata a ⟨h.pool.bump.le.trans ha, hsize⟩]
      exact h.pool.fresh a ha hsize
  shape i ix := by rw [haddr, h.shape]
  byte_eq i p hp := by
    rw [haddr, hdata _ (h.pool.isData (h.mapped hp))]
    exact h.byte_eq i p hp
  short := h.short

end Image

/-! ## `blockFor` -/

/-- Place `p` has a block; if it had none, the counter gave it one. -/
structure Grown (tab : Nat → Option DiskInode) (img : Img) (p : Place) (tab' : Nat → Option DiskInode) (img' : Img) :
    Prop where
  before : Pool tab img.disk img.freeblock
  pool : Pool tab' img'.disk img'.freeblock
  addr : addrOf tab' img'.disk =
    if addrOf tab img.disk p = 0 then update (addrOf tab img.disk) p (BitVec.ofNat 32 img.freeblock)
    else addrOf tab img.disk
  next : img'.freeblock = if addrOf tab img.disk p = 0 then img.freeblock + 1 else img.freeblock
  inode : img'.freeinode = img.freeinode

namespace Grown

variable {tab tab' tab'' : Nat → Option DiskInode} {img img' img'' : Img} {p q : Place} (h : Grown tab img p tab' img')
include h

theorem kept (hq : addrOf tab img.disk q ≠ 0) : addrOf tab' img'.disk q = addrOf tab img.disk q := by
  rw [h.addr]
  split
  · rename_i hp
    apply update_of_ne
    rintro rfl
    exact hq hp
  · rfl

theorem of_ne (hq : q ≠ p) : addrOf tab' img'.disk q = addrOf tab img.disk q := by
  rw [h.addr]
  split
  · exact update_of_ne hq ..
  · rfl

theorem here : addrOf tab' img'.disk p ≠ 0 := by
  rw [h.addr]
  split
  · rw [update_self]
    exact h.before.next_ne_zero
  · assumption

theorem ne_zero_iff : addrOf tab' img'.disk q ≠ 0 ↔ addrOf tab img.disk q ≠ 0 ∨ q = p := by
  by_cases hq : q = p
  · subst hq
    exact iff_of_true h.here (.inr rfl)
  · rw [h.of_ne hq]
    exact (or_iff_left hq).symm

end Grown

section Place

variable {tab : Nat → Option DiskInode} {img : Img} {i : Nat} {x : DiskInode}

theorem addrFor_grown (h : Pool tab img.disk img.freeblock) (hx : tab i = some x) (k : Fin 13)
    (hroom : addrOf tab img.disk (i, .addr k) = 0 → img.freeblock < FSSIZE) :
    ∃ x' img', addrFor k x img = (x', img') ∧ Grown tab img (i, .addr k) (update tab i (some x')) img' ∧
      img'.disk = img.disk ∧ x' = { x with addrs := x'.addrs } := by
  have haddr : addrOf tab img.disk (i, .addr k) = x.addrs k := addrOf_some hx _
  unfold addrFor
  by_cases hk : x.addrs k = 0
  · have hzero := haddr.trans hk
    have hlt := hroom hzero
    have hnew := addrOf_addr (d := img.disk) hx hk h.next_ne_zero (h.next_fresh hlt)
    refine ⟨_, _, if_pos hk, ⟨h, ?_, ?_, ?_, rfl⟩, rfl, rfl⟩
    · exact h.alloc hzero hlt hnew fun _ _ => rfl
    · rw [if_pos hzero]
      exact hnew
    · rw [if_pos hzero]
  · have hne : addrOf tab img.disk (i, .addr k) ≠ 0 := by rwa [haddr]
    have htab : update tab i (some x) = tab := by rw [← hx, update_eq_self]
    refine ⟨x, img, if_neg hk, ⟨h, ?_, ?_, ?_, rfl⟩, rfl, rfl⟩
    · rw [htab]
      exact h
    · rw [if_neg hne, htab]
    · rw [if_neg hne]

theorem entryFor_grown (h : Pool tab img.disk img.freeblock) (hx : tab i = some x)
    (hind : x.addrs (Fin.last 12) ≠ 0) (j : Fin 256)
    (hroom : addrOf tab img.disk (i, .entry j) = 0 → img.freeblock < FSSIZE) :
    ∃ a img', entryFor (x.addrs (Fin.last 12)) j img = some (a, img') ∧ Grown tab img (i, .entry j) tab img' ∧
      addrOf tab img'.disk (i, .entry j) = a ∧ ∀ b, b ≠ x.addrs (Fin.last 12) → img'.disk b = img.disk b := by
  have hplace : addrOf tab img.disk (i, .addr (Fin.last 12)) = x.addrs (Fin.last 12) := addrOf_some hx _
  have hrange := (h.range (p := (i, .addr (Fin.last 12))) (by rwa [hplace])).2
  rw [hplace] at hrange
  have hentry : addrOf tab img.disk (i, .entry j) = img.disk (x.addrs (Fin.last 12)) j := by
    rw [addrOf_some hx]
    exact if_neg hind
  have hread : rsect (x.addrs (Fin.last 12)) img = some (img.disk (x.addrs (Fin.last 12))) :=
    if_pos (hrange.trans_le h.fits)
  unfold entryFor
  rw [hread]
  by_cases hz : img.disk (x.addrs (Fin.last 12)) j = 0
  · have hzero := hentry.trans hz
    have hlt := hroom hzero
    have hnew := h.addrOf_entry hx hind j (BitVec.ofNat 32 img.freeblock)
    refine ⟨_, _, if_pos hz, ⟨h, ?_, ?_, ?_, rfl⟩, ?_, ?_⟩
    · apply h.alloc hzero hlt hnew
      intro b hb
      apply update_of_ne
      rintro rfl
      omega
    · rw [if_pos hzero]
      exact hnew
    · rw [if_pos hzero]
      rfl
    · exact (congrFun hnew _).trans (update_self ..)
    · intro b hb
      exact update_of_ne hb ..
  · have hne : addrOf tab img.disk (i, .entry j) ≠ 0 := by rwa [hentry]
    refine ⟨_, _, if_neg hz, ⟨h, h, ?_, ?_, rfl⟩, hentry, fun _ _ => rfl⟩
    · rw [if_neg hne]
    · rw [if_neg hne]

/-- What `blockFor` leaves: inode `i` went from `x` to `x'`, block `fbn` of it is `a`, and only places of
that block were given addresses. -/
structure Placed (tab : Nat → Option DiskInode) (i : Nat) (x : DiskInode) (img : Img) (fbn : Nat) (a : BlockNo)
    (x' : DiskInode) (img' : Img) : Prop where
  pool : Pool (update tab i (some x')) img'.disk img'.freeblock
  addr : addrOf (update tab i (some x')) img'.disk (i, .ofBlock fbn) = a
  kept : ∀ p, addrOf tab img.disk p ≠ 0 → addrOf (update tab i (some x')) img'.disk p = addrOf tab img.disk p
  ne_zero_iff : ∀ p, addrOf (update tab i (some x')) img'.disk p ≠ 0 ↔
    addrOf tab img.disk p ≠ 0 ∨ p = (i, .ofBlock fbn) ∨ p = (i, .addr (Fin.last 12)) ∧ 12 ≤ fbn
  next : img'.freeblock = img.freeblock + (if addrOf tab img.disk (i, .ofBlock fbn) = 0 then 1 else 0) +
    if addrOf tab img.disk (i, .addr (Fin.last 12)) = 0 ∧ 12 ≤ fbn then 1 else 0
  disk : ∀ b, (x'.addrs (Fin.last 12) ≠ 0 → b ≠ x'.addrs (Fin.last 12)) → img'.disk b = img.disk b
  inode : img'.freeinode = img.freeinode
  fields : x' = { x with addrs := x'.addrs }

/-- **`blockFor` finds or makes the place of a block.** -/
theorem blockFor_placed (h : Pool tab img.disk img.freeblock) (hx : tab i = some x) {fbn : Nat}
    (hfbn : fbn < MAXFILE)
    (hroom : img.freeblock + (if addrOf tab img.disk (i, .ofBlock fbn) = 0 then 1 else 0) +
      (if addrOf tab img.disk (i, .addr (Fin.last 12)) = 0 ∧ 12 ≤ fbn then 1 else 0) ≤ FSSIZE) :
    ∃ a x' img', blockFor fbn x img = some (a, x', img') ∧ Placed tab i x img fbn a x' img' := by
  have hmax : MAXFILE = 268 := rfl
  by_cases hd : fbn < 12
  · have hplace : Index.ofBlock fbn = .addr ⟨fbn, lt_addrs hd⟩ := dif_pos hd
    have hnot : ¬ 12 ≤ fbn := by omega
    rw [hplace] at hroom
    obtain ⟨x', img', hrun, hg, hdisk, hfields⟩ := addrFor_grown h hx ⟨fbn, lt_addrs hd⟩ (by
      intro hz
      rw [if_pos hz] at hroom
      omega)
    refine ⟨x'.addrs ⟨fbn, lt_addrs hd⟩, x', img', ?_, hg.pool, ?_, fun p hp => hg.kept hp, ?_, ?_, ?_, hg.inode, hfields⟩
    · unfold blockFor
      rw [dif_pos hd, hrun]
    · rw [hplace]
      exact addrOf_some (update_self ..) _
    · intro p
      rw [hg.ne_zero_iff, hplace]
      simp only [hnot, and_false, or_false]
    · rw [hg.next, hplace]
      simp only [hnot, and_false, if_false, Nat.add_zero]
      split <;> rfl
    · intro b _
      rw [hdisk]
  have hj : fbn - 12 < 256 := by omega
  have hplace : Index.ofBlock fbn = .entry ⟨fbn - 12, hj⟩ := by
    rw [Index.ofBlock, dif_neg hd]
    exact congrArg Index.entry (Fin.ext (Nat.mod_eq_of_lt hj))
  have hge : 12 ≤ fbn := by omega
  rw [hplace] at hroom
  simp only [hge, and_true] at hroom
  -- first the indirect block
  obtain ⟨x1, img1, hrun, hg, hdisk, hfields⟩ := addrFor_grown h hx (Fin.last 12) (by
    intro hz
    rw [if_pos hz] at hroom
    omega)
  have hx1 : update tab i (some x1) i = some x1 := update_self ..
  have hind : x1.addrs (Fin.last 12) ≠ 0 := by
    have hhere := hg.here
    rwa [addrOf_some hx1] at hhere
  have hold : addrOf (update tab i (some x1)) img1.disk (i, .entry ⟨fbn - 12, hj⟩) =
      addrOf tab img.disk (i, .entry ⟨fbn - 12, hj⟩) := hg.of_ne (by simp)
  -- then the entry in it
  obtain ⟨a, img2, hentry, hg', ha, hframe⟩ := entryFor_grown hg.pool hx1 hind ⟨fbn - 12, hj⟩ (by
    intro hz
    rw [hold] at hz
    rw [if_pos hz] at hroom
    rw [hg.next]
    split
    · rename_i hlast
      rw [if_pos hlast] at hroom
      omega
    · omega)
  refine ⟨a, x1, img2, ?_, hg'.pool, ?_, ?_, ?_, ?_, ?_, hg'.inode.trans hg.inode, hfields⟩
  · unfold blockFor
    rw [dif_neg hd, dif_pos hj, hrun]
    dsimp only
    rw [hentry]
    rfl
  · rw [hplace]
    exact ha
  · intro p hp
    have hkept := hg.kept hp
    exact (hg'.kept (by rwa [hkept])).trans hkept
  · intro p
    rw [hg'.ne_zero_iff, hg.ne_zero_iff, hplace]
    simp only [hge, and_true]
    tauto
  · rw [hg'.next, hold, hg.next, hplace]
    simp only [hge, and_true]
    split <;> split <;> rfl
  · intro b hb
    rw [hframe b (hb hind), hdisk]

end Place

/-! ## `iappend` -/

structure Appended (tab : Nat → Option DiskInode) (file : Nat → List (BitVec 8)) (i : Nat) (x : DiskInode)
    (img : Img) (p : List (BitVec 8)) (x' : DiskInode) (img' : Img) : Prop where
  image : Image (update tab i (some x')) (update file i (file i ++ p)) img'.disk img'.freeblock
  counted : img'.freeblock + blocksFor (file i).length = img.freeblock + blocksFor ((file i).length + p.length)
  metadata : ∀ b : BlockNo, b.toNat < nmeta → img'.disk b = img.disk b
  inode : img'.freeinode = img.freeinode
  fields : x' = { x with addrs := x'.addrs }

section Append

variable {tab : Nat → Option DiskInode} {file : Nat → List (BitVec 8)} {img img' img'' : Img} {i : Nat}
  {f : Nat → BitVec 8} {w : List (BitVec 8)}
variable {x x' x'' : DiskInode} {p q : List (BitVec 8)}

theorem Appended.refl (h : Image tab file img.disk img.freeblock) (hx : tab i = some x) :
    Appended tab file i x img [] x img where
  image := by
    rw [append_nil, update_eq_self, ← hx, update_eq_self]
    exact h
  counted := rfl
  metadata _ _ := rfl
  inode := rfl
  fields := rfl

theorem Appended.trans (h : Appended tab file i x img p x' img')
    (h' : Appended (update tab i (some x')) (update file i (file i ++ p)) i x' img' q x'' img'') :
    Appended tab file i x img (p ++ q) x'' img'' where
  image := by
    have himage := h'.image
    rwa [update_idem, update_idem, update_self, append_assoc] at himage
  counted := by
    have hfirst := h.counted
    have hsecond := h'.counted
    rw [update_self, length_append] at hsecond
    rw [length_append, ← Nat.add_assoc]
    omega
  metadata b hb := (h'.metadata b hb).trans (h.metadata b hb)
  inode := h'.inode.trans h.inode
  fields := by rw [h'.fields, h.fields]

theorem first_lt_turn {off n : Nat} (hoff : off < 274432) (hn : 0 < n) (hblock : off % 1024 + n ≤ 1024) (ix : Index) :
    first ix < off + n ↔ first ix < off ∨ ix = .ofBlock (off / 1024) ∨ ix = .addr (Fin.last 12) ∧ 12 ≤ off / 1024 := by
  have hmax : MAXFILE = 268 := rfl
  have hbn : off / 1024 < MAXFILE := by omega
  have hmult : ∃ m, first ix = m * 1024 := by
    cases ix with
    | addr k => exact ⟨k, rfl⟩
    | entry j => exact ⟨12 + j, rfl⟩
  constructor
  · intro hlt
    by_cases hold : first ix < off
    · exact .inl hold
    obtain ⟨m, hm⟩ := hmult
    have heq : first ix = off / 1024 * 1024 := by rw [hm] at hlt hold ⊢; omega
    rcases first_eq_ofBlock hbn heq with rfl | rfl
    · exact .inr (.inl rfl)
    · rw [first_indirect] at heq
      exact .inr (.inr ⟨rfl, by omega⟩)
  · rintro (hlt | rfl | ⟨rfl, hge⟩)
    · omega
    · rw [first_ofBlock hbn]
      omega
    · rw [first_indirect]
      omega

theorem blocksFor_turn {off n : Nat} (hn : 0 < n) (hblock : off % 1024 + n ≤ 1024) :
    blocksFor (off + n) = blocksFor off + (if off % 1024 = 0 then 1 else 0) +
      if off = 12288 then 1 else 0 := by
  unfold blocksFor
  split <;> split <;> split <;> split <;> omega

namespace Placed

variable {fbn : Nat} {a : BlockNo} (hp : Placed tab i x img fbn a x' img')
include hp

section

variable (h : Image tab file img.disk img.freeblock)
include h

theorem block_kept {j q : Nat}
    (hq : q < (file j).length) : img'.disk (addrOf tab img.disk (j, .ofBlock (q / 1024))) =
      img.disk (addrOf tab img.disk (j, .ofBlock (q / 1024))) := by
  have hmapped := h.mapped hq
  have hkept := hp.kept _ hmapped
  apply hp.disk
  intro hne heq
  have hlast : addrOf (update tab i (some x')) img'.disk (i, .addr (Fin.last 12)) = x'.addrs (Fin.last 12) :=
    addrOf_some (update_self ..) _
  have hplace := hp.pool.inj (by rwa [hkept]) ((hkept.trans heq).trans hlast.symm)
  exact Index.ofBlock_ne _ (congrArg Prod.snd hplace)

/-- The block of the turn is block `fbn` of the file and no other. -/
theorem block_eq {j q : Nat}
    (hfbn : fbn < MAXFILE) (hq : q < (file j).length) (heq : addrOf tab img.disk (j, .ofBlock (q / 1024)) = a) :
    j = i ∧ q / 1024 = fbn := by
  have hshort := h.short j
  have hmax : MAXFILE = 268 := rfl
  have hmapped := h.mapped hq
  have hkept := hp.kept _ hmapped
  have hplace := hp.pool.inj (by rwa [hkept]) ((hkept.trans heq).trans hp.addr.symm)
  refine ⟨congrArg Prod.fst hplace, ?_⟩
  have hfirst := congrArg (fun p => first p.2) hplace
  dsimp only at hfirst
  rw [first_ofBlock (by omega), first_ofBlock hfbn] at hfirst
  omega

theorem byte_eq
    (hoff : (file i).length / 1024 = fbn) (hfbn : fbn < MAXFILE)
    (hblock : (file i).length % 1024 + w.length ≤ 1024)
    (hf : ∀ k, k < w.length → f k = w.getD k 0) {j q : Nat} (hq : q < (update file i (file i ++ w) j).length) :
    byteAt (update img'.disk a (overwrite (img'.disk a) ((file i).length % 1024) w.length f)
      (addrOf (update tab i (some x')) img'.disk (j, .ofBlock (q / 1024)))) (q % 1024) =
      (update file i (file i ++ w) j).getD q 0 := by
  by_cases hold : q < (file j).length
  · have hgetD : (update file i (file i ++ w) j).getD q 0 = (file j).getD q 0 := by
      by_cases hj : j = i
      · subst hj
        rw [update_self, getD_append _ _ _ _ hold]
      · rw [update_of_ne hj]
    rw [hgetD, ← h.byte_eq j q hold, hp.kept _ (h.mapped hold)]
    by_cases hqa : addrOf tab img.disk (j, .ofBlock (q / 1024)) = a
    · -- in the block of this turn, in front of what is copied
      obtain ⟨rfl, hdiv⟩ := hp.block_eq h hfbn hold hqa
      have hkept := hp.block_kept h hold
      rw [hqa] at hkept ⊢
      rw [update_self, byteAt_overwrite _ _ _ _ (Nat.mod_lt _ (by decide)), if_neg (by omega), hkept]
    · rw [update_of_ne hqa, hp.block_kept h hold]
  · have hj : j = i := by
      by_contra hj
      rw [update_of_ne hj] at hq
      exact hold hq
    subst hj
    rw [update_self] at hq ⊢
    rw [length_append] at hq
    have hdiv : q / 1024 = fbn := by omega
    rw [hdiv, hp.addr, update_self, byteAt_overwrite _ _ _ _ (Nat.mod_lt _ (by decide)),
      if_pos (by omega), getD_append_right _ _ _ _ (by omega), hf _ (by omega)]
    congr 1
    omega

end

end Placed

theorem turn_appended (h : Image tab file img.disk img.freeblock) (hx : tab i = some x)
    (hw : 0 < w.length) (hblock : (file i).length % 1024 + w.length ≤ 1024)
    (hshort : (file i).length + w.length ≤ 274432)
    (hroom : img.freeblock + blocksFor ((file i).length + w.length) ≤ FSSIZE + blocksFor (file i).length)
    (hf : ∀ k, k < w.length → f k = w.getD k 0) :
    ∃ a x' img', blockFor ((file i).length / 1024) x img = some (a, x', img') ∧ a.toNat < FSSIZE ∧
      Appended tab file i x img w x'
        (wsect a (overwrite (img'.disk a) ((file i).length % 1024) w.length f) img') := by
  generalize hoff : (file i).length = off at *
  have hmax : MAXFILE = 268 := rfl
  have hbn : off / 1024 < MAXFILE := by omega
  have hgrow := blocksFor_turn hw hblock
  -- which of the two addresses are missing, in terms of the length
  have hdata : addrOf tab img.disk (i, .ofBlock (off / 1024)) = 0 ↔ off % 1024 = 0 := by
    rw [← not_iff_not, ← Ne, h.shape, first_ofBlock hbn, hoff]
    omega
  have hind : addrOf tab img.disk (i, .addr (Fin.last 12)) = 0 ∧ 12 ≤ off / 1024 ↔ off = 12288 := by
    have hlast : addrOf tab img.disk (i, .addr (Fin.last 12)) = 0 ↔ ¬ 12288 < off := by
      rw [← not_iff_not, ← Ne, h.shape, hoff, not_not, first_indirect]
    rw [hlast]
    omega
  obtain ⟨a, x', img', hrun, hp⟩ := blockFor_placed h.pool hx hbn (by
    simp only [hdata, hind]
    omega)
  have hnext := hp.next
  simp only [hdata, hind] at hnext
  have hx' : update tab i (some x') i = some x' := update_self ..
  have hane : addrOf (update tab i (some x')) img'.disk (i, .ofBlock (off / 1024)) ≠ 0 :=
    (hp.ne_zero_iff _).mpr (.inr (.inl rfl))
  have hrange := hp.pool.range hane
  have hwrite := hp.pool.write hane (overwrite (img'.disk a) (off % 1024) w.length f)
  have hsame := hp.pool.addrOf_data i (off / 1024) (overwrite (img'.disk a) (off % 1024) w.length f)
  rw [hp.addr] at hrange hwrite hsame
  have hfits := hp.pool.fits
  refine ⟨a, x', img', hrun, by omega, ⟨?_, ?_, ?_, hp.inode, hp.fields⟩⟩
  · constructor
    · exact hwrite
    · intro j ix
      show addrOf _ (update img'.disk a _) (j, ix) ≠ 0 ↔ _
      rw [hsame, hp.ne_zero_iff, h.shape]
      by_cases hj : j = i
      · subst hj
        rw [update_self, length_append, hoff, first_lt_turn (by omega) hw hblock]
        simp only [Prod.mk.injEq, true_and]
      · rw [update_of_ne hj]
        simp only [Prod.mk.injEq, hj, false_and, or_false]
    · intro j q hq
      have hbyte := hp.byte_eq h (by rw [hoff]) hbn (by rwa [hoff]) hf hq
      rw [hoff, ← hsame] at hbyte
      exact hbyte
    intro j
    by_cases hj : j = i
    · subst hj
      rw [update_self, length_append, hoff]
      exact hshort
    · rw [update_of_ne hj]
      exact h.short j
  · rw [hoff]
    show img'.freeblock + _ = _
    omega
  intro b hb
  have hba : b ≠ a := by
    rintro rfl
    omega
  show update img'.disk a _ b = _
  rw [update_of_ne hba]
  apply hp.disk
  rintro hne rfl
  have hlast : addrOf (update tab i (some x')) img'.disk (i, .addr (Fin.last 12)) = x'.addrs (Fin.last 12) :=
    addrOf_some hx' _
  have hlow := (hp.pool.range (p := (i, .addr (Fin.last 12))) (by rwa [hlast])).1
  rw [hlast] at hlow
  omega

theorem blocksFor_mono {m n : Nat} (h : m ≤ n) : blocksFor m ≤ blocksFor n := by
  unfold blocksFor
  split <;> split <;> omega

/-- **The loop of `iappend`**: as long as there are blocks, it appends its bytes. -/
theorem appendLoop_appended (i fuel : Nat) : ∀ {tab : Nat → Option DiskInode} {file : Nat → List (BitVec 8)}
    {img : Img} {x : DiskInode} {p : List (BitVec 8)}, Image tab file img.disk img.freeblock → tab i = some x →
    p.length ≤ fuel → (file i).length + p.length ≤ 274432 →
    img.freeblock + blocksFor ((file i).length + p.length) ≤ FSSIZE + blocksFor (file i).length →
    ∃ x' img', appendLoop fuel p (file i).length x img = some ((file i).length + p.length, x', img') ∧
      Appended tab file i x img p x' img' := by
  induction fuel with
  | zero =>
    intro tab file img x p h hx hfuel _ _
    have hp : p = [] := length_eq_zero_iff.mp (Nat.le_zero.mp hfuel)
    subst hp
    exact ⟨x, img, rfl, .refl h hx⟩
  | succ fuel ih =>
    intro tab file img x p h hx hfuel hshort hroom
    unfold appendLoop
    by_cases hp : 0 < p.length
    · have hB : BSIZE = 1024 := rfl
      generalize hn : min p.length (((file i).length / BSIZE + 1) * BSIZE - (file i).length) = n
      have hmin := hn
      rw [hB] at hmin
      have hlen : (p.take n).length = n := by rw [length_take]; omega
      have hmono := blocksFor_mono (m := (file i).length + n) (n := (file i).length + p.length) (by omega)
      obtain ⟨a, x1, img1, hrun, ha, hturn⟩ := turn_appended (w := p.take n) (f := fun k => p.getD k 0) h hx
        (by omega) (by omega) (by omega) (by rw [hlen]; omega) (by
          intro k hk
          rw [hlen] at hk
          rw [getD_eq_getElem?_getD, getD_eq_getElem?_getD, getElem?_take, if_pos hk])
      have hcount := hturn.counted
      rw [hlen] at hturn hcount
      -- the rest, from where this turn ended
      have hlen' : (update file i (file i ++ p.take n) i).length = (file i).length + n := by
        rw [update_self, length_append, hlen]
      have hdrop : (p.drop n).length = p.length - n := length_drop
      have hsum : (file i).length + n + (p.length - n) = (file i).length + p.length := by omega
      obtain ⟨x', img', hloop, hrest⟩ := ih (p := p.drop n) hturn.image (update_self ..) (by omega)
        (by omega) (by rw [hlen', hdrop, hsum]; omega)
      refine ⟨x', img', ?_, ?_⟩
      · have hread : rsect a img1 = some (img1.disk a) := if_pos ha
        have hstart : (file i).length - (file i).length / BSIZE * BSIZE = (file i).length % 1024 := by
          rw [hB]
          omega
        rw [hlen', hdrop, hsum] at hloop
        simp only [if_pos hp, hn, hstart, Option.bind_eq_bind]
        rw [hB, hrun]
        simp only [Option.bind_some, hread]
        exact hloop
      · have hall := hturn.trans hrest
        rwa [take_append_drop] at hall
    · have hnil : p = [] := length_eq_zero_iff.mp (by omega)
      subst hnil
      exact ⟨x, img, if_neg hp, .refl h hx⟩

end Append

end Xv6.Fs.Mkfs
