/-
# Xv6.Fs.Growth — which blocks `bmap` and the copies of `writei` write.

`Extends` says what becomes of the addresses; here is what becomes of the blocks.  A call that was always
given a block writes the free map, blocks that the inode had, and blocks that were free and are now the
inode's (`Grows`).  `bmap` leaves the data alone: of the blocks that have a name, it writes the indirect
block of the inode at most (`Fetches`).
-/
import Xv6.Fs.Ownership

namespace Xv6.Fs

open Function
open Kernel (Cid Container BSIZE neg64)
open Lib (bind_eq_ok update_eq_some)

def IsFree (sb : Superblock) (d : Disk) (b : BlockNo) : Prop := b.toNat < sb.size ∧ bit sb d b.toNat = false

def IsMap (sb : Superblock) (b : BlockNo) : Prop := ∃ e, e < sb.size ∧ b = sb.bblock e

def DiskInode.Has (x : DiskInode) (d : Disk) (b : BlockNo) : Prop := b ≠ 0 ∧ ∃ ix, x.addrAt d ix = b

/-- What `Extends` says, and of the blocks: marks are only added, the blocks
of the inode are those it had and blocks that were free, and nothing is written but these and the free
map. -/
structure Grows (sb : Superblock) (tab : Nat → Option DiskInode) (i : Nat) (x x' : DiskInode) (d d' : Disk) : Prop
    extends Extends sb tab i x x' d d' where
  marked : ∀ e, e < sb.size → bit sb d e = true → bit sb d' e = true
  origin : ∀ b, x'.Has d' b → x.Has d b ∨ IsFree sb d b
  changed : ∀ b, d' b ≠ d b → IsMap sb b ∨ x.Has d b ∨ (IsFree sb d b ∧ x'.Has d' b)

/-- The inode was given block `a` at index `ix`, unless it had it
there, and nothing else of it was changed. -/
structure Fetches (sb : Superblock) (tab : Nat → Option DiskInode) (i : Nat) (x x' : DiskInode) (d d' : Disk)
    (ix : Index) (a : BlockNo) : Prop where
  grows : Grows sb tab i x x' d d'
  ne : a ≠ 0
  addr : x'.addrAt d' ix = a
  table : ∀ jx, jx ≠ ix → x'.addrAt d' jx = x.addrAt d jx
  frame : ∀ p b, names tab d p b → p ≠ (i, .addr (Fin.last 12)) → d' b = d b

section Growth

variable {sb : Superblock} {tab : Nat → Option DiskInode} {d d' d'' : Disk} {i : Nat} {b blk : BlockNo}
  {ix : Index} {j : Fin 256} {k : Fin 13}
variable {x x' x'' : DiskInode} {a : BlockNo} {c : Cid} {st st' : Store}

theorem DiskInode.Has.names (hx : tab i = some x) (h : x.Has d b) : ∃ ix, names tab d (i, ix) b := by
  obtain ⟨hne, ix, hix⟩ := h
  exact ⟨ix, hne, x, hx, hix⟩

namespace Grows

theorem refl (h : Sound sb (names tab d) d) (hx : tab i = some x) : Grows sb tab i x x d d where
  toExtends := .refl h hx
  marked _ _ hb := hb
  origin _ hb := .inl hb
  changed _ hb := absurd rfl hb

section

variable (h : Grows sb tab i x x' d d')
include h

theorem has (hb : x.Has d b) : x'.Has d' b := by
  obtain ⟨hne, ix, rfl⟩ := hb
  exact ⟨hne, ix, h.kept ix hne⟩

theorem free (hb : IsFree sb d' b) : IsFree sb d b := by
  refine ⟨hb.1, Bool.eq_false_iff.mpr fun hset => ?_⟩
  rw [IsFree, h.marked _ hb.1 hset] at hb
  cases hb.2

theorem trans (h' : Grows sb (update tab i (some x')) i x' x'' d' d'') : Grows sb tab i x x'' d d'' where
  toExtends := h.toExtends.trans h'.toExtends
  marked e he hb := h'.marked e he (h.marked e he hb)
  origin b hb := by
    rcases h'.origin b hb with hhas | hfree
    · exact h.origin b hhas
    · exact .inr (h.free hfree)
  changed b hb := by
    by_cases hfirst : d' b = d b
    · rcases h'.changed b (by rwa [hfirst]) with hmap | hhas | ⟨hfree, hhas⟩
      · exact .inl hmap
      · rcases h.origin b hhas with hold | hfree
        · exact .inr (.inl hold)
        · exact .inr (.inr ⟨hfree, h'.has hhas⟩)
      · exact .inr (.inr ⟨h.free hfree, hhas⟩)
    · rcases h.changed b hfirst with hmap | hhas | ⟨hfree, hhas⟩
      · exact .inl hmap
      · exact .inr (.inl hhas)
      · exact .inr (.inr ⟨hfree, h'.has hhas⟩)

end

theorem write (h : Sound sb (names tab d) d) (hx : tab i = some x) {bn : Nat} (hne : a ≠ 0)
    (ha : x.addrAt d (.ofBlock bn) = a) (blk : Block) : Grows sb tab i x x d (update d a blk) := by
  have hname : names tab d (i, .ofBlock bn) a := ⟨hne, x, hx, ha⟩
  have hdata := h.data hname
  have hbits : ∀ b, b < sb.size → bit sb (update d a blk) b = bit sb d b := fun b hb => bit_update_data hdata b hb
  have hsame : ∀ j y, tab j = some y → ∀ ix, y.addrAt (update d a blk) ix = y.addrAt d ix :=
    fun j y hy ix => h.addrAt_write hname hy blk ix
  refine ⟨⟨?_, fun ix _ => hsame i x hx ix, fun j y _ hy ix => hsame j y hy ix, sameInodes_update hdata, rfl⟩,
    fun e he hb => (hbits e he).trans hb, fun b hb => ?_, fun b hb => ?_⟩
  · rw [← hx, update_eq_self]
    apply h.mono _ hbits
    rintro p b ⟨hb, y, hy, hyb⟩
    exact ⟨hb, y, hy, (hsame _ y hy p.2) ▸ hyb⟩
  · obtain ⟨hbne, ix, hix⟩ := hb
    rw [hsame i x hx] at hix
    exact .inl ⟨hbne, ix, hix⟩
  · by_cases hba : b = a
    · exact .inr (.inl ⟨hba ▸ hne, _, hba ▸ ha⟩)
    · exact absurd (update_of_ne hba ..) hb

theorem others_block (h : Grows sb tab i x x' d d') (hsound : Sound sb (names tab d) d) (hx : tab i = some x)
    {j : Nat} (hj : j ≠ i) (hname : names tab d (j, ix) b) : d' b = d b := by
  by_contra hb
  have hused := hsound.owns.used hname
  rcases h.changed b hb with ⟨e, he, rfl⟩ | hhas | ⟨hfree, _⟩
  · exact hused.1.ne_bblock he rfl
  · obtain ⟨ix', hname'⟩ := hhas.names hx
    exact hj (congrArg Prod.fst (hsound.owns.inj hname hname'))
  · have hset := hused.2
    rw [hfree.2] at hset
    cases hset

end Grows

theorem bit_balloc (hsound : Sound sb (names tab st.disk) st.disk) (hb : balloc sb c st = .ok (a, st')) (hs : st'.Sated)
    {e : Nat} (he : e < sb.size) : bit sb st'.disk e = if e = a.toNat then true else bit sb st.disk e := by
  obtain ⟨-, hlt, -, hdisk⟩ := balloc_eq_ok hb hs
  rw [hdisk, bit_update_data (hsound.balloc hb hs).inUse.1 e he, bit_setBit hlt he]

theorem balloc_changed (hb : balloc sb c st = .ok (a, st')) (hs : st'.Sated) (hne : st'.disk b ≠ st.disk b) :
    IsMap sb b ∨ b = a := by
  obtain ⟨-, hlt, -, hdisk⟩ := balloc_eq_ok hb hs
  by_cases hba : b = a
  · exact .inr hba
  refine .inl ⟨a.toNat, hlt, ?_⟩
  by_contra hmap
  apply hne
  rw [hdisk, update_of_ne hba]
  exact update_of_ne hmap ..

theorem Fetches.refl (hsound : Sound sb (names tab d) d) (hx : tab i = some x) (hne : x.addrAt d ix ≠ 0) :
    Fetches sb tab i x x d d ix (x.addrAt d ix) :=
  ⟨.refl hsound hx, hne, rfl, fun _ _ => rfl, fun _ _ _ _ => rfl⟩

/-- **The inode is given a block**, at an index where it had none: after the grant, at most its indirect
block was written. -/
theorem balloc_fetches (hb : balloc sb c st = .ok (a, st')) (hs : st'.Sated)
    (hsound : Sound sb (names tab st.disk) st.disk) (hx : tab i = some x) (hzero : x.addrAt st.disk ix = 0)
    (hin : ∀ b, d' b ≠ st'.disk b → names tab st.disk (i, .addr (Fin.last 12)) b)
    (hown : ∀ jx, x'.addrAt d' jx = if jx = ix then a else x.addrAt st.disk jx)
    (hfields : x' = { x with addrs := x'.addrs }) : Fetches sb tab i x x' st.disk d' ix a := by
  have hg := hsound.balloc hb hs
  obtain ⟨-, hlt, hclear, -⟩ := balloc_eq_ok hb hs
  have hne : a ≠ 0 := hg.inUse.1.ne_zero
  have haddr : x'.addrAt d' ix = a := by rw [hown, if_pos rfl]
  -- what is not data is as `balloc` has left it
  have hout : ∀ b, ¬ sb.IsData b → d' b = st'.disk b := by
    intro b hb
    by_contra hdiff
    exact hb (hsound.data (hin b hdiff))
  have hbits : ∀ e, e < sb.size → bit sb d' e = bit sb st'.disk e := by
    intro e he
    unfold bit
    rw [hout _ fun hdata => hdata.ne_bblock he rfl]
  have hnamed : ∀ p b, names tab st.disk p b → p ≠ (i, .addr (Fin.last 12)) → d' b = st.disk b := by
    intro p b hname hp
    rw [← hg.named hsound hname]
    by_contra hdiff
    exact hp (hsound.owns.inj hname (hin b hdiff))
  have hothers : ∀ j y, j ≠ i → tab j = some y → ∀ jx, y.addrAt d' jx = y.addrAt st.disk jx := by
    intro j y hj hy
    apply DiskInode.addrAt_congr
    intro hind
    exact hnamed _ _ (names_indirect hy hind) fun heq => hj (congrArg Prod.fst heq)
  refine ⟨⟨⟨?sound, ?kept, hothers, ?inodes, hfields⟩, ?marked, ?origin, ?changed⟩, hne, haddr, ?table, hnamed⟩
  case sound =>
    apply (hg.sound.attach hg.inUse hg.new (p := (i, ix))).mono _ hbits
    rintro ⟨j, jx⟩ b ⟨hb, y, hy, hyb⟩
    obtain ⟨rfl, rfl⟩ | ⟨hj, hy⟩ := update_eq_some hy
    · rw [hown] at hyb
      by_cases hix : jx = ix
      · rw [if_pos hix] at hyb
        exact .inr ⟨by rw [hix], hyb.symm⟩
      · rw [if_neg hix] at hyb
        exact .inl ⟨hb, x, hx, hyb⟩
    · exact .inl ⟨hb, y, hy, (hothers j y hj hy jx) ▸ hyb⟩
  case kept =>
    intro jx hnz
    rw [hown, if_neg]
    rintro rfl
    exact hnz hzero
  case inodes =>
    refine hg.inodes.trans fun j hj => ?_
    unfold readInode
    rw [hout _ fun hdata => hdata.ne_iblock hj rfl]
  case marked =>
    intro e he hbit
    rw [hbits e he, bit_balloc hsound hb hs he, hbit, ite_self]
  case origin =>
    rintro b ⟨hbne, jx, hjx⟩
    rw [hown] at hjx
    by_cases hix : jx = ix
    · rw [if_pos hix] at hjx
      exact .inr (hjx ▸ ⟨hlt, hclear⟩)
    · rw [if_neg hix] at hjx
      exact .inl ⟨hbne, jx, hjx⟩
  case changed =>
    intro b hdiff
    by_cases hsame : d' b = st'.disk b
    · rw [hsame] at hdiff
      rcases balloc_changed hb hs hdiff with hmap | rfl
      · exact .inl hmap
      · exact .inr (.inr ⟨⟨hlt, hclear⟩, hne, ix, haddr⟩)
    · obtain ⟨hbne, y, hy, hyb⟩ := hin b hsame
      rw [hx] at hy
      cases hy
      exact .inr (.inl ⟨hbne, _, hyb⟩)
  case table =>
    intro jx hjx
    rw [hown, if_neg hjx]

theorem bmapAddr_fetches (h : bmapAddr sb c x k st = .ok (a, x', st')) (hs : st'.Sated)
    (hx : tab i = some x) (hsound : Sound sb (names tab st.disk) st.disk) :
    Fetches sb tab i x x' st.disk st'.disk (.addr k) a := by
  unfold bmapAddr at h
  by_cases hzero : x.addrs k = 0
  · rw [if_pos hzero] at h
    obtain ⟨⟨a1, st1⟩, hb, hr⟩ := bind_eq_ok.mp h
    cases hr
    have hown := (hsound.balloc hb hs).addrAt_addr hsound hx hzero
    exact balloc_fetches hb hs hsound hx hzero (fun b hne => absurd rfl hne) hown rfl
  · rw [if_neg hzero] at h
    cases h
    exact .refl hsound hx hzero

theorem bmapEntry_fetches (h : bmapEntry sb c blk j st = .ok (a, st')) (hs : st'.Sated)
    (hx : tab i = some x) (hsound : Sound sb (names tab st.disk) st.disk) (hblk : x.addrs (Fin.last 12) = blk)
    (hblkne : blk ≠ 0) : Fetches sb tab i x x st.disk st'.disk (.entry j) a := by
  subst hblk
  have hentry : x.addrAt st.disk (.entry j) = st.disk (x.addrs (Fin.last 12)) j := if_neg hblkne
  unfold bmapEntry at h
  rw [← hentry] at h
  by_cases hzero : x.addrAt st.disk (.entry j) = 0
  · rw [if_pos hzero] at h
    obtain ⟨⟨a1, st1⟩, hb, hr⟩ := bind_eq_ok.mp h
    cases hr
    have hown := (hsound.balloc hb hs).addrAt_entry hsound hx hblkne (j := j)
    refine balloc_fetches hb hs hsound hx hzero (fun b hne => ?_) hown rfl
    by_cases hind : b = x.addrs (Fin.last 12)
    · exact hind ▸ names_indirect hx hblkne
    · exact absurd (update_of_ne hind ..) hne
  · rw [if_neg hzero] at h
    cases h
    exact .refl hsound hx hzero

theorem bmapAddr_sated (h : bmapAddr sb c x k st = .ok (a, x', st')) (hs : st'.Sated) : st.Sated := by
  unfold bmapAddr at h
  split at h
  · obtain ⟨⟨a1, st1⟩, hb, hr⟩ := bind_eq_ok.mp h
    cases hr
    exact (balloc_eq_ok hb hs).1
  · cases h
    exact hs

theorem bmapEntry_sated (h : bmapEntry sb c blk j st = .ok (a, st')) (hs : st'.Sated) : st.Sated := by
  unfold bmapEntry at h
  split at h
  · obtain ⟨⟨a1, st1⟩, hb, hr⟩ := bind_eq_ok.mp h
    cases hr
    exact (balloc_eq_ok hb hs).1
  · cases h
    exact hs

theorem Index.ofBlock_inj {m n : Nat} (hm : m < MAXFILE) (hn : n < MAXFILE) (h : Index.ofBlock m = .ofBlock n) : m = n := by
  have hmax : MAXFILE = 268 := rfl
  unfold Index.ofBlock at h
  by_cases hm' : m < 12
  · by_cases hn' : n < 12
    · rw [dif_pos hm', dif_pos hn'] at h
      exact congrArg Fin.val (Index.addr.inj h)
    · rw [dif_pos hm', dif_neg hn'] at h
      cases h
  by_cases hn' : n < 12
  · rw [dif_neg hm', dif_pos hn'] at h
    cases h
  · rw [dif_neg hm', dif_neg hn'] at h
    have hval := congrArg Fin.val (Index.entry.inj h)
    dsimp only at hval
    omega

end Growth

/-- `bmap` found or allocated block `bn` of the file. -/
structure Got (sb : Superblock) (tab : Nat → Option DiskInode) (i : Nat) (x x' : DiskInode) (d d' : Disk)
    (bn : Nat) (a : BlockNo) : Prop where
  grows : Grows sb tab i x x' d d'
  ne : a ≠ 0
  addr : x'.addrAt d' (.ofBlock bn) = a
  table : ∀ jx, jx ≠ .ofBlock bn → jx ≠ .addr (Fin.last 12) → x'.addrAt d' jx = x.addrAt d jx
  indirect : x'.addrs (Fin.last 12) = 0 ↔ x.addrs (Fin.last 12) = 0 ∧ bn < 12
  frame : ∀ p b, names tab d p b → p ≠ (i, .addr (Fin.last 12)) → d' b = d b

section Got

variable {sb : Superblock} {tab : Nat → Option DiskInode} {d d' : Disk} {i : Nat} {x x' x'' : DiskInode}
variable {a b : BlockNo} {c : Cid} {st st' : Store} {bn : Nat}

theorem Fetches.got_direct (h : Fetches sb tab i x x' d d' (.ofBlock bn) a) (hbn : bn < 12) :
    Got sb tab i x x' d d' bn a where
  grows := h.grows
  ne := h.ne
  addr := h.addr
  table jx hjx _ := h.table jx hjx
  indirect := by
    have hlast := h.table (.addr (Fin.last 12)) (Index.ofBlock_ne bn).symm
    show x'.addrAt d' (.addr (Fin.last 12)) = 0 ↔ _
    rw [hlast, and_iff_left hbn]
    rfl
  frame := h.frame

theorem Fetches.got_indirect {d'' : Disk} (h : Fetches sb tab i x x' d d' (.addr (Fin.last 12)) b)
    (h' : Fetches sb (update tab i (some x')) i x' x' d' d'' (.ofBlock bn) a) (hx : tab i = some x)
    (hbn : ¬ bn < 12) : Got sb tab i x x' d d'' bn a where
  grows := h.grows.trans h'.grows
  ne := h'.ne
  addr := h'.addr
  table jx hjx hlast := (h'.table jx hjx).trans (h.table jx hlast)
  indirect := by
    have haddr : x'.addrs (Fin.last 12) = b := h.addr
    rw [haddr]
    exact iff_of_false h.ne fun hz => hbn hz.2
  frame p e hname hp := by
    have hname' : names (update tab i (some x')) d' p e := by
      obtain ⟨hne, y, hy, hye⟩ := hname
      refine ⟨hne, ?_⟩
      by_cases hpi : p.1 = i
      · rw [hpi] at hy ⊢
        rw [hx] at hy
        cases hy
        refine ⟨x', update_self .., ?_⟩
        rw [h.grows.kept p.2 (by rw [hye]; exact hne), hye]
      · refine ⟨y, by rw [update_of_ne hpi]; exact hy, ?_⟩
        rw [h.grows.others p.1 y hpi hy, hye]
    rw [h'.frame p e hname' hp]
    exact h.frame p e hname hp

section

variable (h : bmap sb c x bn st = .ok (a, x', st'))
include h

/-- **What `bmap` does**, when it was given the blocks it asked for. -/
theorem bmap_got (hs : st'.Sated) (hx : tab i = some x)
    (hsound : Sound sb (names tab st.disk) st.disk) : Got sb tab i x x' st.disk st'.disk bn a := by
  rcases bmap_eq_ok.mp h with ⟨hbn, h⟩ | ⟨hbn, hj, blk, st1, h1, h2⟩
  · apply Fetches.got_direct _ hbn
    rw [Index.ofBlock_addr hbn]
    exact bmapAddr_fetches h hs hx hsound
  · have htable := bmapAddr_fetches h1 (bmapEntry_sated h2 hs) hx hsound
    apply htable.got_indirect _ hx hbn
    rw [Index.ofBlock_entry hbn hj]
    exact bmapEntry_fetches h2 hs (update_self i (some x') tab) htable.grows.sound htable.addr htable.ne

theorem bmap_sated (hs : st'.Sated) : st.Sated := by
  rcases bmap_eq_ok.mp h with ⟨_, h⟩ | ⟨_, _, blk, st1, h1, h2⟩
  · exact bmapAddr_sated h hs
  · exact bmapAddr_sated h1 (bmapEntry_sated h2 hs)

theorem bmap_lt : bn < MAXFILE := by
  have hmax : MAXFILE = 268 := rfl
  rcases bmap_eq_ok.mp h with ⟨hbn, -⟩ | ⟨-, hj, -⟩ <;> omega

end

section

variable (h : Got sb tab i x x' d d' bn a)
include h

theorem Got.write (blk : Block) : Grows sb (update tab i (some x')) i x' x' d' (update d' a blk) :=
  .write h.grows.sound (update_self ..) h.ne h.addr blk

theorem Got.addrAt_write (blk : Block) (ix : Index) : x'.addrAt (update d' a blk) ix = x'.addrAt d' ix := by
  have hx' : update tab i (some x') i = some x' := update_self ..
  have hname : names (update tab i (some x')) d' (i, .ofBlock bn) a := ⟨h.ne, x', hx', h.addr⟩
  exact h.grows.sound.addrAt_write hname hx' blk ix

end

end Got

end Xv6.Fs
