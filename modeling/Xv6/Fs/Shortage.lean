/-
# Xv6.Fs.Shortage — what a write does when `balloc` has no block for it.

`bmap` takes the `0` of a `balloc` that failed for a block number, and its caller reads and writes block
`0`.  If it was the indirect block that could not be had, the words of block `0` are taken for addresses.
So whether such a write does harm depends on what the first two blocks of the disk hold, and the question
is asked for all they can hold (`front`): a write that runs short forgets a byte of them (`writeLoop_merges`).
-/
import Xv6.Fs.Filewrite

namespace Xv6.Fs

open Function List
open Kernel (Cid Container BSIZE neg64)
open Lib (bind_eq_ok)

/-- The disk with a boot block and a block `1` of its own. -/
def front (boot super : Block) (d : Disk) : Disk := update (update d 1 super) 0 boot

def Store.front (boot super : Block) (st : Store) : Store := { st with disk := Fs.front boot super st.disk }

/-! ## The file system does not look at the front -/

section Front

variable {sb : Superblock} {d : Disk} {boot super : Block} {b : BlockNo} {e i : Nat} {x : DiskInode}
  {tab : Nat → Option DiskInode}

theorem front_of_le (hb : 2 ≤ b.toNat) : front boot super d b = d b := by
  have hzero : b ≠ 0 := by
    rintro rfl
    exact absurd hb (by decide)
  have hone : b ≠ 1 := by
    rintro rfl
    exact absurd hb (by decide)
  rw [front, update_of_ne hzero, update_of_ne hone]

theorem front_zero : front boot super d 0 = boot := update_self ..

theorem front_one : front boot super d 1 = super := by
  rw [front, update_of_ne (by decide), update_self]

theorem front_update (hb : 2 ≤ b.toNat) (blk : Block) : front boot super (update d b blk) = update (front boot super d) b blk := by
  have hzero : b ≠ 0 := by
    rintro rfl
    exact absurd hb (by decide)
  have hone : b ≠ 1 := by
    rintro rfl
    exact absurd hb (by decide)
  rw [front, front, update_comm hone, update_comm hzero]

variable (hlay : 2 ≤ sb.inodestart)

include hlay

theorem two_le_iblock (hi : i < sb.ninodes) : 2 ≤ (sb.iblock i).toNat := by
  rw [(Superblock.iblock_toNat hi).1]
  omega

theorem two_le_bblock (he : e < sb.size) : 2 ≤ (sb.bblock e).toNat := by
  have hfit := sb.inodes_fit
  rw [(Superblock.bblock_toNat he).1]
  omega

theorem two_le_datastart : 2 ≤ sb.datastart := by
  have hfit := sb.inodes_fit
  unfold Superblock.datastart
  omega

theorem Superblock.IsData.two_le (hb : sb.IsData b) : 2 ≤ b.toNat := (two_le_datastart hlay).trans hb.1

theorem bit_front (he : e < sb.size) : bit sb (front boot super d) e = bit sb d e := by
  unfold bit
  rw [front_of_le (two_le_bblock hlay he)]

theorem setBit_front (he : e < sb.size) (v : Bool) :
    setBit sb e v (front boot super d) = front boot super (setBit sb e v d) := by
  unfold setBit
  dsimp only
  rw [front_of_le (two_le_bblock hlay he), front_update (two_le_bblock hlay he)]

theorem grant_front {f : Nat} (hf : f < sb.size) (hdata : sb.IsData (BitVec.ofNat 32 f)) :
    grant sb f (front boot super d) = front boot super (grant sb f d) := by
  unfold grant
  rw [setBit_front hlay hf, front_update (hdata.two_le hlay)]

theorem inodesOf_front : inodesOf sb (front boot super d) = inodesOf sb d := by
  apply SameInodes.inodesOf
  intro i hi
  unfold readInode
  rw [front_of_le (two_le_iblock hlay hi)]

section

variable (hsound : Sound sb (names tab d) d)
include hsound

theorem addrAt_front (hx : tab i = some x) (ix : Index) : x.addrAt (front boot super d) ix = x.addrAt d ix := by
  apply DiskInode.addrAt_congr
  intro hind
  exact front_of_le ((hsound.data (names_indirect (d := d) hx hind)).two_le hlay)

theorem names_front : names tab (front boot super d) = names tab d := by
  funext p a
  apply propext
  unfold names
  constructor
  · rintro ⟨hne, y, hy, ha⟩
    exact ⟨hne, y, hy, by rwa [addrAt_front hlay hsound hy] at ha⟩
  · rintro ⟨hne, y, hy, ha⟩
    exact ⟨hne, y, hy, by rwa [addrAt_front hlay hsound hy]⟩

theorem Sound.front (boot super : Block) : Sound sb (names tab (front boot super d)) (front boot super d) := by
  rw [names_front hlay hsound]
  refine ⟨fun b hb hm => ?_, ⟨fun {p a} hname => ?_, hsound.owns.inj⟩⟩
  · rw [bit_front hlay hb]
    exact hsound.metadata b hb hm
  · obtain ⟨hdata, hbit⟩ := hsound.owns.used hname
    exact ⟨hdata, by rwa [bit_front hlay hdata.2]⟩

end

theorem Wf.front (hwf : Wf sb d) (boot super : Block) : Wf sb (front boot super d) := by
  refine ⟨?_, fun i x hx bn hbn => ?_⟩
  · rw [inodesOf_front hlay]
    exact hwf.sound.front hlay boot super
  · rw [inodesOf_front hlay] at hx
    rw [addrAt_front hlay hwf.sound hx]
    exact hwf.mapped i x hx bn hbn

end Front

/-! ## Runs behind the front -/

/-- The result of a call, with the front of the disk replaced. -/
def Ahead {α : Type} (boot super : Block) (r : Except Panic (α × Store)) : Except Panic (α × Store) :=
  r.map fun a => (a.1, a.2.front boot super)

section Runs

variable {sb : Superblock} {c : Cid} {tab : Nat → Option DiskInode} {i : Nat} {x x' : DiskInode} {st st' : Store}
variable (hlay : 2 ≤ sb.inodestart) (boot super : Block)

include hlay

theorem firstFree_front {d : Disk} {f : Nat} (h : FirstFree sb d f) : FirstFree sb (front boot super d) f where
  lt := h.lt
  free := by rw [bit_front hlay h.lt, h.free]
  before e he := by rw [bit_front hlay (he.trans h.lt), h.before e he]

section

variable (hsound : Sound sb (names tab st.disk) st.disk)
include hsound

/-- **`balloc` does not look at the front.** -/
theorem balloc_front : balloc sb c (st.front boot super) = Ahead boot super (balloc sb c st) := by
  rcases full_or_firstFree sb st.disk with hfull | ⟨f, hf⟩
  · have hfull' : ∀ e, e < sb.size → bit sb (st.front boot super).disk e = true := fun e he => by
      show bit sb (front boot super st.disk) e = true
      rw [bit_front hlay he, hfull e he]
    unfold balloc
    rw [ballocScan_full hfull, ballocScan_full hfull']
    rfl
  have hle : f / 8192 * 8192 ≤ f := Nat.div_mul_le_self f 8192
  have hbase := hle.trans_lt hf.lt
  have hgrant : grant sb f (front boot super st.disk) = front boot super (grant sb f st.disk) :=
    grant_front hlay hf.lt (hsound.firstFree_data hf)
  rw [balloc_first hf, balloc_first (firstFree_front hlay boot super hf : FirstFree sb (st.front boot super).disk f)]
  show (if Refuses (st.cont c) then _ else _) = _
  by_cases hrefuse : Refuses (st.cont c)
  · rw [if_pos hrefuse, if_pos hrefuse]
    unfold bfree Store.front
    dsimp only
    rw [toNat_ofNat hbase, hgrant, bit_front hlay hbase]
    by_cases hbit : bit sb (grant sb f st.disk) (f / 8192 * 8192) = false
    · rw [if_pos hbit, if_pos hbit]
      rfl
    · rw [if_neg hbit, if_neg hbit, setBit_front hlay hbase]
      rfl
  · rw [if_neg hrefuse, if_neg hrefuse]
    unfold Store.front
    dsimp only
    rw [hgrant]
    rfl

theorem bmapAddr_front {k : Fin 13} :
    bmapAddr sb c x k (st.front boot super) =
      (bmapAddr sb c x k st).map fun r => (r.1, r.2.1, r.2.2.front boot super) := by
  unfold bmapAddr
  by_cases hzero : x.addrs k = 0
  · rw [if_pos hzero, if_pos hzero, balloc_front hlay boot super hsound]
    cases balloc sb c st <;> rfl
  · rw [if_neg hzero, if_neg hzero]
    rfl

theorem bmapEntry_front {blk : BlockNo} {j : Fin 256} (hblk : sb.IsData blk) :
    bmapEntry sb c blk j (st.front boot super) = Ahead boot super (bmapEntry sb c blk j st) := by
  have hsame : ∀ d, front boot super d blk = d blk := fun d => front_of_le (hblk.two_le hlay)
  unfold bmapEntry
  show (if front boot super st.disk blk j = 0 then _ else _) = _
  rw [hsame]
  by_cases hzero : st.disk blk j = 0
  · rw [if_pos hzero, if_pos hzero, balloc_front hlay boot super hsound]
    cases balloc sb c st with
    | error e => rfl
    | ok r =>
      show Except.ok _ = Except.ok _
      unfold Store.front
      dsimp only
      rw [hsame, front_update (hblk.two_le hlay)]
  · rw [if_neg hzero, if_neg hzero]
    show Except.ok (front boot super st.disk blk j, _) = _
    rw [hsame]
    rfl

end

theorem bmap_front {a : BlockNo} {bn : Nat} (h : bmap sb c x bn st = .ok (a, x', st')) (hs : st'.Sated) (hx : tab i = some x)
    (hsound : Sound sb (names tab st.disk) st.disk) :
    bmap sb c x bn (st.front boot super) = .ok (a, x', st'.front boot super) := by
  apply bmap_eq_ok.mpr
  rcases bmap_eq_ok.mp h with ⟨hbn, h⟩ | ⟨hbn, hj, blk, st1, h1, h2⟩
  · refine .inl ⟨hbn, ?_⟩
    rw [bmapAddr_front hlay boot super hsound, h]
    rfl
  · have hfetch := bmapAddr_fetches h1 (bmapEntry_sated h2 hs) hx hsound
    refine .inr ⟨hbn, hj, blk, st1.front boot super, ?_, ?_⟩
    · rw [bmapAddr_front hlay boot super hsound, h1]
      rfl
    · rw [bmapEntry_front hlay boot super hfetch.grows.sound hfetch.isData, h2]
      rfl

end Runs

/-! ## Running short -/

/-- `f` gives the same for two fronts of the disk. -/
def Merges {α : Type} (f : Store → α) (st : Store) : Prop :=
  ∃ boot super boot' super', (boot ≠ boot' ∨ super ≠ super') ∧ f (st.front boot super) = f (st.front boot' super')

theorem exists_twins {start : Nat} (hstart : start < 1024) : ∃ blk blk' : Block, blk ≠ blk' ∧
    ∀ len f, 0 < len → overwrite blk start len f = overwrite blk' start len f := by
  have hbyte := fun p (hp : p < 1024) => byteAt_overwrite (fun _ => 0) start 1 (fun _ => 1) hp
  refine ⟨fun _ => 0, overwrite (fun _ => 0) start 1 fun _ => 1, fun heq => ?_, fun len f hlen => ?_⟩
  · have hone := hbyte start hstart
    rw [← heq, if_pos ⟨le_refl start, Nat.lt_succ_self start⟩] at hone
    have hzero : byteAt (fun _ => 0) start = 0 := by unfold byteAt; simp
    rw [hzero] at hone
    exact absurd hone (by decide)
  · apply overwrite_congr
    · intro k _
      rfl
    · intro p hp hout
      rw [hbyte p hp, if_neg (by omega)]

section Short

variable {sb : Superblock} {c : Cid} {tab : Nat → Option DiskInode} {i : Nat} {x x' : DiskInode} {st st' : Store}
  {src : Nat → Option (BitVec 8)} {n tot off : Nat}
variable (hlay : 2 ≤ sb.inodestart)

/-- A `balloc` without a block answers `0`, or it frees a block that is free. -/
theorem balloc_short (h : ¬ Supply sb c st 1) :
    (∃ e, balloc sb c st = .error e) ∨ ∃ st', balloc sb c st = .ok (0, st') := by
  rcases full_or_firstFree sb st.disk with hfull | ⟨f, hf⟩
  · right
    unfold balloc
    rw [ballocScan_full hfull]
    exact ⟨_, rfl⟩
  have hrefuse : Refuses (st.cont c) := by
    by_contra hpay
    exact h (supply_one_iff.mpr ⟨⟨f, hf⟩, hpay⟩)
  rw [balloc_first hf, if_pos hrefuse]
  cases bfree sb c (BitVec.ofNat 32 (f / 8192 * 8192))
    { st with disk := grant sb f st.disk, cont := update st.cont c ((st.cont c).updatedsk (BitVec.ofNat 64 BSIZE)).1 } with
  | error e => exact .inl ⟨e, rfl⟩
  | ok st' => exact .inr ⟨_, rfl⟩

include hlay

theorem bmapAddr_short {k : Fin 13} (hsound : Sound sb (names tab st.disk) st.disk) (hzero : x.addrs k = 0)
    (h : ¬ Supply sb c st 1) :
    (∃ e, ∀ boot super, bmapAddr sb c x k (st.front boot super) = .error e) ∨
      ∃ (x' : DiskInode) (st' : Store), ∀ boot super, bmapAddr sb c x k (st.front boot super) = .ok (0, x', st'.front boot super) := by
  have hrun : ∀ boot super, bmapAddr sb c x k (st.front boot super) = _ := fun boot super =>
    bmapAddr_front hlay boot super hsound
  have haddr : bmapAddr sb c x k st = balloc sb c st >>= fun r => .ok (r.1, { x with addrs := update x.addrs k r.1 }, r.2) := by
    unfold bmapAddr
    rw [if_pos hzero]
  rcases balloc_short h with ⟨e, hb⟩ | ⟨st', hb⟩
  · refine .inl ⟨e, fun boot super => ?_⟩
    rw [hrun, haddr, hb]
    rfl
  · refine .inr ⟨{ x with addrs := update x.addrs k 0 }, st', fun boot super => ?_⟩
    rw [hrun, haddr, hb]
    rfl

theorem bmapEntry_short {blk : BlockNo} {j : Fin 256} (hsound : Sound sb (names tab st.disk) st.disk) (hblk : sb.IsData blk)
    (hzero : st.disk blk j = 0) (h : ¬ Supply sb c st 1) :
    (∃ e, ∀ boot super, bmapEntry sb c blk j (st.front boot super) = .error e) ∨
      ∃ st' : Store, ∀ boot super, bmapEntry sb c blk j (st.front boot super) = .ok (0, st'.front boot super) := by
  have hrun : ∀ boot super, bmapEntry sb c blk j (st.front boot super) = _ := fun boot super =>
    bmapEntry_front hlay boot super hsound hblk
  have hentry : bmapEntry sb c blk j st = balloc sb c st >>= fun r =>
      .ok (r.1, { r.2 with disk := update r.2.disk blk (update (r.2.disk blk) j r.1) }) := by
    unfold bmapEntry
    rw [if_pos hzero]
  rcases balloc_short h with ⟨e, hb⟩ | ⟨st', hb⟩
  · refine .inl ⟨e, fun boot super => ?_⟩
    rw [hrun, hentry, hb]
    rfl
  · refine .inr ⟨{ st' with disk := update st'.disk blk (update (st'.disk blk) j 0) }, fun boot super => ?_⟩
    rw [hrun, hentry, hb]
    rfl

/-- **What `bmap` answers when it runs short**: `0`, or a word of block `0`. -/
theorem bmap_short {bn : Nat} (hs : st.Sated) (hx : tab i = some x) (hsound : Sound sb (names tab st.disk) st.disk)
    (hbn : bn < MAXFILE) (h : ¬ Supply sb c st (needed x st.disk {bn})) :
    (∃ e, ∀ boot super, bmap sb c x bn (st.front boot super) = .error e) ∨
      (∃ (x' : DiskInode) (st' : Store), ∀ boot super, bmap sb c x bn (st.front boot super) = .ok (0, x', st'.front boot super)) ∨
      ∃ (x' : DiskInode) (st' : Store), ∀ super, bmap sb c x bn (st.front (fun _ => 1) super) = .ok (1, x', st'.front (fun _ => 1) super) := by
  by_cases hdirect : bn < 12
  · have heq : ∀ st, bmap sb c x bn st = bmapAddr sb c x ⟨bn, lt_addrs hdirect⟩ st := fun st => dif_pos hdirect
    rw [needed_direct x st.disk hdirect] at h
    have hzero : x.addrs ⟨bn, lt_addrs hdirect⟩ = 0 := by
      by_contra hne
      rw [if_neg hne] at h
      exact h .zero
    rw [if_pos hzero] at h
    simp only [heq]
    rcases bmapAddr_short hlay hsound hzero h with herr | hok
    · exact .inl herr
    · exact .inr (.inl hok)
  have hj : bn - 12 < 256 := by
    have hmax : MAXFILE = 268 := rfl
    omega
  have heq : ∀ st, bmap sb c x bn st = bmapAddr sb c x (Fin.last 12) st >>= fun r =>
      bmapEntry sb c r.1 ⟨bn - 12, hj⟩ r.2.2 >>= fun r' => .ok (r'.1, r.2.1, r'.2) := by
    intro st
    unfold bmap
    rw [dif_neg hdirect, dif_pos hj]
  simp only [heq]
  by_cases htable : Supply sb c st (if x.addrs (Fin.last 12) = 0 then 1 else 0)
  · -- the indirect block is there, and its entry could not be had
    obtain ⟨blk, x1, st1, h1, hs1⟩ := bmapAddr_runs hs hsound htable
    have hfetch := bmapAddr_fetches h1 hs1 hx hsound
    rw [needed_indirect hdirect (Index.ofBlock_entry hdirect hj) hfetch, bmapAddr_spends h1 hs1 hsound _] at h
    have hzero : st1.disk blk ⟨bn - 12, hj⟩ = 0 := by
      by_contra hne
      rw [if_neg hne] at h
      exact h .zero
    rw [if_pos hzero] at h
    have hrun : ∀ boot super, bmapAddr sb c x (Fin.last 12) (st.front boot super) = .ok (blk, x1, st1.front boot super) := by
      intro boot super
      rw [bmapAddr_front hlay boot super hsound, h1]
      rfl
    rcases bmapEntry_short hlay hfetch.grows.sound hfetch.isData hzero h with ⟨e, herr⟩ | ⟨st', hok⟩
    · refine .inl ⟨e, fun boot super => ?_⟩
      rw [hrun]
      show (bmapEntry sb c blk ⟨bn - 12, hj⟩ (st1.front boot super) >>= _) = _
      rw [herr]
      rfl
    refine .inr (.inl ⟨x1, st', fun boot super => ?_⟩)
    rw [hrun]
    show (bmapEntry sb c blk ⟨bn - 12, hj⟩ (st1.front boot super) >>= _) = _
    rw [hok]
    rfl
  · -- there is no indirect block, and block `0` is taken for it
    have hzero : x.addrs (Fin.last 12) = 0 := by
      by_contra hne
      rw [if_neg hne] at htable
      exact htable .zero
    rw [if_pos hzero] at htable
    rcases bmapAddr_short hlay hsound hzero htable with ⟨e, herr⟩ | ⟨x', st', hok⟩
    · refine .inl ⟨e, fun boot super => ?_⟩
      rw [herr]
      rfl
    refine .inr (.inr ⟨x', st', fun super => ?_⟩)
    rw [hok]
    have hblock : front (fun _ => 1) super st'.disk 0 = fun _ => 1 := front_zero
    have hword : (st'.front (fun _ => 1) super).disk 0 ⟨bn - 12, hj⟩ = 1 := congrFun hblock ⟨bn - 12, hj⟩
    have hentry : bmapEntry sb c 0 ⟨bn - 12, hj⟩ (st'.front (fun _ => 1) super) = .ok (1, st'.front (fun _ => 1) super) := by
      unfold bmapEntry
      rw [hword, if_neg (by decide)]
    exact bind_eq_ok.mpr ⟨_, rfl, bind_eq_ok.mpr ⟨_, hentry, rfl⟩⟩

theorem copied_front {a : BlockNo} (ha : sb.IsData a) (boot super : Block) :
    copied src n tot off a (st.front boot super) = (copied src n tot off a st).front boot super := by
  have htwo := ha.two_le hlay
  unfold copied Store.front
  dsimp only
  rw [front_of_le htwo, front_update htwo]

omit hlay in
theorem copied_zero (boot super : Block) :
    copied src n tot off 0 (st.front boot super) = st.front (turnBlock src n tot off boot) super := by
  unfold copied Store.front
  dsimp only
  rw [front_zero, front, front, update_idem]

omit hlay in
theorem copied_one (boot super : Block) :
    copied src n tot off 1 (st.front boot super) = st.front boot (turnBlock src n tot off super) := by
  unfold copied Store.front
  dsimp only
  rw [front_one, front, front, update_comm (by decide), update_idem]

/-- **A turn that runs short forgets a byte of the front.** -/
theorem turn_merges {fuel : Nat} (hsrc : ∀ k, k < n → (src k).isSome)
    (hlt : tot < n) (hs : st.Sated) (hx : tab i = some x) (hsound : Sound sb (names tab st.disk) st.disk)
    (hbn : off / BSIZE < MAXFILE) (h : ¬ Supply sb c st (needed x st.disk {off / BSIZE})) :
    Merges (writeLoop sb c src n (fuel + 1) tot off x) st := by
  have hmod : off % BSIZE < 1024 := Nat.mod_lt off (by decide)
  obtain ⟨blk, blk', hne, htwins⟩ := exists_twins hmod
  have hturn : turnBlock src n tot off blk = turnBlock src n tot off blk' := htwins _ _ (turnLen_pos hlt off)
  rcases bmap_short hlay hs hx hsound hbn h with ⟨e, herr⟩ | ⟨x', st', hok⟩ | ⟨x', st', hok⟩
  · refine ⟨blk, blk, blk', blk, .inl hne, ?_⟩
    rw [writeLoop_turn hsrc hlt, writeLoop_turn hsrc hlt, herr, herr]
  · -- the copy goes into block `0`
    refine ⟨blk, blk, blk', blk, .inl hne, ?_⟩
    rw [writeLoop_turn hsrc hlt, writeLoop_turn hsrc hlt, hok, hok]
    show writeLoop sb c src n fuel _ _ x' (copied src n tot off 0 (st'.front blk blk)) =
      writeLoop sb c src n fuel _ _ x' (copied src n tot off 0 (st'.front blk' blk))
    rw [copied_zero, copied_zero, hturn]
  -- the copy goes into block `1`
  refine ⟨fun _ => 1, blk, fun _ => 1, blk', .inr hne, ?_⟩
  rw [writeLoop_turn hsrc hlt, writeLoop_turn hsrc hlt, hok, hok]
  show writeLoop sb c src n fuel _ _ x' (copied src n tot off 1 (st'.front (fun _ => 1) blk)) =
    writeLoop sb c src n fuel _ _ x' (copied src n tot off 1 (st'.front (fun _ => 1) blk'))
  rw [copied_one, copied_one, hturn]

/-- **So does a write that runs short**: until then the front is what it was. -/
theorem writeLoop_merges (hsrc : ∀ k, k < n → (src k).isSome) (fuel : Nat) :
    ∀ {tab : Nat → Option DiskInode} {tot off : Nat} {x : DiskInode} {st : Store}, st.Sated → n - tot ≤ fuel →
    off + (n - tot) ≤ 274432 → tab i = some x → Sound sb (names tab st.disk) st.disk →
    ¬ Supply sb c st (needed x st.disk (blocksOf off (n - tot))) →
    Merges (writeLoop sb c src n fuel tot off x) st := by
  induction fuel with
  | zero =>
    intro tab tot off x st hs hfuel hend hx hsound h
    exact absurd (.done (by omega) off) h
  | succ fuel ih =>
    intro tab tot off x st hs hfuel hend hx hsound h
    by_cases hlt : tot < n
    · have hle := turnLen_le n tot off
      have hpos := turnLen_pos hlt off
      have hbn : off / BSIZE < MAXFILE := by show off / 1024 < 268; omega
      by_cases hone : Supply sb c st (needed x st.disk {off / BSIZE})
      · obtain ⟨a, x1, st1, hb, hs1, hgot, hsplit⟩ := turn_runs hs hx hsound hlt hend hone src
        have hname : names (update tab i (some x1)) st1.disk (i, .ofBlock (off / BSIZE)) a :=
          ⟨hgot.ne, x1, update_self .., hgot.addr⟩
        have hrest : Merges _ (copied src n tot off a st1) := ih hs1 (by omega) (by omega) (update_self i (some x1) tab)
          (hgot.turn src n tot off).sound (fun hsup => h (hsplit.mpr hsup))
        obtain ⟨boot, super, boot', super', hdiff, hsame⟩ := hrest
        have hstep : ∀ boot super, writeLoop sb c src n (fuel + 1) tot off x (st.front boot super) =
            writeLoop sb c src n fuel (tot + turnLen n tot off) (off + turnLen n tot off) x1
              ((copied src n tot off a st1).front boot super) := by
          intro boot super
          rw [writeLoop_turn hsrc hlt, bmap_front hlay boot super hb hs1 hx hsound,
            ← copied_front hlay (hgot.grows.sound.data hname)]
          rfl
        refine ⟨boot, super, boot', super', hdiff, ?_⟩
        rw [hstep, hstep]
        exact hsame
      · exact turn_merges hlay hsrc hlt hs hx hsound hbn hone
    · exact absurd (.done hlt off) h

end Short

/-! ## Harm -/

/-- **A write that harms nobody**: `writei` returns; it has changed the free map, the block of the inode, and blocks that the
inode had or that were free and are its own now; and the bytes that it says it has written can be read. -/
def Harmless (sb : Superblock) (c : Cid) (i : Nat) (x : DiskInode) (data : List (BitVec 8)) (off n : BitVec 32) (st : Store) :
    Prop :=
  ∃ r x' st', writei sb c i x (source data) off n st = .ok (r, x', st') ∧
    (∀ b, st'.disk b ≠ st.disk b →
      IsMap sb b ∨ b = sb.iblock i ∨ x.Has st.disk b ∨ (IsFree sb st.disk b ∧ x'.Has st'.disk b)) ∧
    (0 ≤ r → ∃ x'' st'', readi sb c x' anywhere off (BitVec.ofInt 32 r) st' = .ok (r, data.take r.toNat, x'', st''))

/-- The checks in front of the loop of `writei`. -/
def Rejected (x : DiskInode) (off n : BitVec 32) : Prop :=
  x.size < off ∨ off + n < off ∨ MAXFILE * BSIZE < (off + n).toNat

section Harm

variable {sb : Superblock} {c : Cid} {i : Nat} {x x' : DiskInode} {st st' : Store} {d : Disk} {off n : BitVec 32}
variable {data : List (BitVec 8)} {boot super : Block}

theorem writei_changed {r : Int} (h : writei sb c i x (source data) off n st = .ok (r, x', st')) (hs : st'.Sated)
    (hx : inodesOf sb st.disk i = some x) (hsound : Sound sb (names (inodesOf sb st.disk) st.disk) st.disk)
    (hoff : off.toNat ≤ x.size.toNat) (hn : n.toNat = data.length) (hfit : off.toNat + data.length ≤ 274432)
    {b : BlockNo} (hb : st'.disk b ≠ st.disk b) :
    IsMap sb b ∨ b = sb.iblock i ∨ x.Has st.disk b ∨ (IsFree sb st.disk b ∧ x'.Has st'.disk b) := by
  obtain ⟨-, ⟨-, -, rfl⟩ | ⟨off', x1, st1, -, -, hgrows, rfl, rfl⟩⟩ := writei_cases h hs hx hsound hoff hn hfit
  · exact absurd rfl hb
  obtain ⟨hi, -, -⟩ := inodesOf_eq_some.mp hx
  by_cases hblk : b = sb.iblock i
  · exact .inr (.inl hblk)
  have hloop : st1.disk b ≠ st.disk b := by intro heq; exact hb ((writeInode_of_ne hblk).trans heq)
  rcases hgrows.changed b hloop with hmap | hhas | ⟨hfree, hne, ix, hix⟩
  · exact .inl hmap
  · exact .inr (.inr (.inl hhas))
  · exact .inr (.inr (.inr ⟨hfree, hne, ix, (hgrows.addrAt_resized hi off' ix).trans hix⟩))

theorem slice_overlay {old : List (BitVec 8)} {off : Nat} (hoff : off ≤ old.length) :
    ((overlay old off data).drop off).take data.length = data := by
  have hlen : (old.take off).length = off := by rw [length_take, Nat.min_eq_left hoff]
  unfold overlay
  rw [append_assoc, drop_left' hlen, take_left' rfl]

theorem harmless_of_supply (hwf : Wf sb d) (cont : Cid → Container) (hx : inodesOf sb d i = some x)
    (hoff : off.toNat ≤ x.size.toNat) (hn : n.toNat = data.length) (hfit : off.toNat + data.length ≤ 274432)
    (h : Supply sb c ⟨d, cont, false, false⟩ (needed x d (blocksOf off.toNat data.length))) :
    Harmless sb c i x data off n ⟨d, cont, false, false⟩ := by
  have hs : Store.Sated ⟨d, cont, false, false⟩ := ⟨rfl, rfl⟩
  have hmapped := hwf.mapped i x hx
  obtain ⟨r, x', st', hrun, hs'⟩ := writei_runs hs hx hwf.sound hoff hn hfit h
  obtain ⟨rfl, hrewrites⟩ := writei_rewrites hrun hs' hwf.sound hx hmapped hoff hn hfit
  refine ⟨_, x', st', hrun, fun b => writei_changed hrun hs' hx hwf.sound hoff hn hfit, fun _ => ⟨x', st', ?_⟩⟩
  have hlen : (x.content d).length = x.size.toNat := length_content x d
  have hsize := hrewrites.size hoff
  have hnat : (BitVec.ofInt 32 (data.length : Int)).toNat = data.length := by
    rw [BitVec.ofInt_natCast, BitVec.toNat_ofNat, Nat.mod_eq_of_lt (by omega)]
  have hslice : ((overlay (x.content d) off.toNat data).drop off.toNat).take data.length = data := slice_overlay (by omega)
  rw [(hrewrites.stored hoff).read c off _ (by omega) (by omega), hnat, hslice, Int.toNat_natCast, take_length]

theorem Harmless.front_kept (hlay : 2 ≤ sb.inodestart) (hwf : Wf sb d) (hx : inodesOf sb d i = some x)
    {cont : Cid → Container} (h : Harmless sb c i x data off n (Store.front boot super ⟨d, cont, false, false⟩)) :
    ∃ r x' st', writei sb c i x (source data) off n (Store.front boot super ⟨d, cont, false, false⟩) = .ok (r, x', st') ∧
      st'.disk 0 = boot ∧ st'.disk 1 = super := by
  obtain ⟨r, x', st', hrun, hchanged, -⟩ := h
  have hstart := two_le_datastart hlay
  obtain ⟨hi, -, -⟩ := inodesOf_eq_some.mp hx
  have hsound := hwf.sound.front hlay boot super
  have hkept : ∀ b : BlockNo, b.toNat < 2 → st'.disk b = front boot super d b := by
    intro b hb
    by_contra hne
    rcases hchanged b hne with ⟨e, he, rfl⟩ | rfl | hhas | ⟨hfree, -⟩
    · exact absurd hb (Nat.not_lt.mpr (two_le_bblock hlay he))
    · exact absurd hb (Nat.not_lt.mpr (two_le_iblock hlay hi))
    · obtain ⟨ix, hname⟩ := hhas.names hx
      exact absurd hb (Nat.not_lt.mpr ((hsound.data hname).two_le hlay))
    · have hset := hsound.metadata b.toNat hfree.1 (by omega)
      exact Bool.noConfusion (hfree.2.symm.trans hset)
  refine ⟨r, x', st', hrun, ?_, ?_⟩
  · rw [hkept 0 (by decide), front_zero]
  · rw [hkept 1 (by decide), front_one]

/-- **When a write harms nobody**, whatever the first two blocks of the disk hold: exactly when it is turned down at once, or
`balloc` has every block that the range still lacks. -/
theorem writei_harmless_iff (hlay : 2 ≤ sb.inodestart) (hwf : Wf sb d) (cont : Cid → Container)
    (hx : inodesOf sb d i = some x) (hn : n.toNat = data.length) :
    (∀ boot super, Harmless sb c i x data off n (Store.front boot super ⟨d, cont, false, false⟩)) ↔
      Rejected x off n ∨ Supply sb c ⟨d, cont, false, false⟩ (needed x d (blocksOf off.toNat data.length)) := by
  by_cases hrej : Rejected x off n
  · refine iff_of_true (fun boot super => ?_) (.inl hrej)
    refine ⟨-1, x, _, ?_, fun b hb => absurd rfl hb, fun hneg => absurd hneg (by decide)⟩
    unfold writei
    by_cases hfirst : x.size < off ∨ off + n < off
    · rw [if_pos hfirst]
    · rw [if_neg hfirst, if_pos]
      exact (or_assoc.mpr hrej).resolve_left hfirst
  rw [or_iff_right hrej]
  unfold Rejected at hrej
  rw [not_or, not_or] at hrej
  obtain ⟨hoff, hwrap, hmax⟩ := hrej
  have hoff : off.toNat ≤ x.size.toNat := Nat.not_lt.mp hoff
  have hfit : off.toNat + data.length ≤ 274432 := by
    have hoffLt := off.isLt
    have hnLt := n.isLt
    have hB : MAXFILE * BSIZE = 274432 := rfl
    rw [BitVec.lt_def, BitVec.toNat_add] at hwrap
    rw [BitVec.toNat_add] at hmax
    omega
  constructor
  · intro hharm
    by_contra hshort
    have hsrc : ∀ k, k < data.length → (source data k).isSome := fun k hk => isSome_source hk
    have hs : Store.Sated ⟨d, cont, false, false⟩ := ⟨rfl, rfl⟩
    have hend : off.toNat + (data.length - 0) ≤ 274432 := hfit
    obtain ⟨boot, super, boot', super', hdiff, hsame⟩ :=
      writeLoop_merges hlay hsrc data.length hs (Nat.sub_le _ _) hend hx hwf.sound hshort
    have hresult : writei sb c i x (source data) off n (Store.front boot super ⟨d, cont, false, false⟩) =
        writei sb c i x (source data) off n (Store.front boot' super' ⟨d, cont, false, false⟩) := by
      rw [writei_eq hoff (by rwa [hn]), writei_eq hoff (by rwa [hn]), hn, hsame]
    obtain ⟨r, x1, st1, hrun, hboot, hsuper⟩ := (hharm boot super).front_kept hlay hwf hx
    obtain ⟨r', x2, st2, hrun', hboot', hsuper'⟩ := (hharm boot' super').front_kept hlay hwf hx
    rw [hresult, hrun'] at hrun
    cases hrun
    rcases hdiff with hne | hne
    · exact hne (hboot.symm.trans hboot')
    · exact hne (hsuper.symm.trans hsuper')
  · intro hsup boot super
    apply harmless_of_supply (hwf.front hlay boot super) cont (by rwa [inodesOf_front hlay]) hoff hn hfit
    rw [needed_congr (addrAt_front hlay hwf.sound hx)]
    have hsame : Spends sb c ⟨d, cont, false, false⟩ ⟨front boot super d, cont, false, false⟩ 0 :=
      .of_same (fun e he => bit_front hlay he) rfl
    rw [← Nat.zero_add (needed x d _)] at hsup
    exact (hsame _).mp hsup

/-- A byte for the empty root directory of a new file system. -/
theorem writei_harmless_blank : Wf mkfsSb (blank mkfsSb) ∧
    ∀ boot super, Harmless mkfsSb 0 1 { Icache.newInode .dir with nlink := 1 } [7] 0 1
      (Store.front boot super ⟨blank mkfsSb, fun _ => Kernel.rootCont, false, false⟩) := by
  have hwf : Wf mkfsSb (blank mkfsSb) := wf_blank (by decide)
  exact ⟨hwf, (writei_harmless_iff (by decide) hwf (fun _ => Kernel.rootCont) inodesOf_blank (by decide)).mpr
    (.inr (supply_blank (by decide) (by decide)))⟩

/-- A new file system, a boot block of zeroes, and containers that may have no block. -/
def shortStore : Store :=
  Store.front (fun _ => 0) (fun _ => 0)
    ⟨blank mkfsSb, fun _ => { Kernel.rootCont with isroot := 0, maxDsk := 1023 }, false, false⟩

/-- The charge for the block is refused, and the byte goes into the boot block. -/
theorem writei_not_harmless : Wf mkfsSb shortStore.disk ∧
    inodesOf mkfsSb shortStore.disk 1 = some { Icache.newInode .dir with nlink := 1 } ∧
    (∃ x' st', writei mkfsSb 1 1 { Icache.newInode .dir with nlink := 1 } (source [7]) 0 1 shortStore = .ok (1, x', st') ∧
      shortStore.disk 0 0 = 0 ∧ st'.disk 0 0 = 7) ∧
    ¬ Harmless mkfsSb 1 1 { Icache.newInode .dir with nlink := 1 } [7] 0 1 shortStore := by
  have hlay : 2 ≤ mkfsSb.inodestart := by decide
  have hwf : Wf mkfsSb (blank mkfsSb) := wf_blank (by decide)
  have hcheck : ((writei mkfsSb 1 1 { Icache.newInode .dir with nlink := 1 } (source [7]) 0 1 shortStore).toOption.any fun r =>
      r.1 == 1 && r.2.2.disk 0 0 == 7) = true := by
    decide +kernel
  obtain ⟨x', st', hrun, hbyte⟩ : ∃ x' st', writei mkfsSb 1 1 { Icache.newInode .dir with nlink := 1 } (source [7]) 0 1
      shortStore = .ok (1, x', st') ∧ st'.disk 0 0 = 7 := by
    cases hrun : writei mkfsSb 1 1 { Icache.newInode .dir with nlink := 1 } (source [7]) 0 1 shortStore with
    | error e =>
      rw [hrun] at hcheck
      cases hcheck
    | ok r =>
      obtain ⟨r, x', st'⟩ := r
      rw [hrun] at hcheck
      simp only [Except.toOption, Option.any_some, Bool.and_eq_true, beq_iff_eq] at hcheck
      obtain ⟨rfl, hbyte⟩ := hcheck
      exact ⟨x', st', rfl, hbyte⟩
  refine ⟨hwf.front hlay _ _, (congrFun (inodesOf_front hlay) 1).trans inodesOf_blank, ⟨x', st', hrun, rfl, hbyte⟩, fun hharm => ?_⟩
  obtain ⟨r, x1, st1, hrun1, hboot, -⟩ := hharm.front_kept hlay hwf inodesOf_blank
  have hsame := hrun.symm.trans hrun1
  cases hsame
  rw [hboot] at hbyte
  exact absurd hbyte (by decide)

end Harm

end Xv6.Fs
